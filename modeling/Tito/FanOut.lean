import Tito.Concurrent
import Tito.Misuse
import Tito.Lib.Clients

namespace Tito.FanOut

open Lib Lib.Mealy Lib.Threads

variable {I : Type}

/-- Where a worker is in `fetch`. -/
inductive Worker where
  | unstarted
  | fetching
  | marking
  | finished
  deriving DecidableEq

/-- Where the main thread is, with how many workers it has started, or joined. It ends by its
response, by the error of its admission, or by one of its release. -/
inductive Main (I : Type) where
  | admitting
  | starting (started : Nat)
  | joining (joined : Nat)
  | releasing
  | responding (response : Option Handle)
  | refused (e : PyError I String)
  | failed
  deriving DecidableEq

/-- All that the threads keep besides the queue `inflight`. -/
structure State (I : Type) (n : Nat) where
  main : Main I
  worker : Fin n → Worker
  results : Dict String String

abbrev Requests (I : Type) (parts : List String) :=
  Client (Option (Fin parts.length)) (State I parts.length) (Request I String)
    (Except (PyError I String) (Returned String))

/-- The main thread: it admits the request, starts the workers, joins them, and releases. -/
def mainNext (request : I) (parts : List String) (s : State I parts.length) :
    Doing (State I parts.length) (Request I String) :=
  match s.main with
  | .admitting => .call (.op (.admitGroup (.hashable request) (.iterable (parts.map .hashable))))
  | .starting i =>
    if hi : i < parts.length then
      .own { s with
        main := .starting (i + 1)
        worker := Function.update s.worker ⟨i, hi⟩ .fetching }
    else .own { s with main := .joining 0 }
  | .joining i =>
    if hi : i < parts.length then
      if s.worker ⟨i, hi⟩ = .finished then .own { s with main := .joining (i + 1) } else .wait
    else .own { s with main := .releasing }
  | .releasing => .call (.op .release)
  | .responding _ => .wait
  | .refused _ => .wait
  | .failed => .wait

def mainGot : Main I → Except (PyError I String) (Returned String) → Main I
  | .admitting, .ok _ => .starting 0
  | .admitting, .error e => .refused e
  | .releasing, .ok (.group h) => .responding (some h)
  | .releasing, .ok .none => .responding none
  | _, _ => .failed

/-- `fetch(part)`. `data` stands for the I/O call, which makes a `str` of the part. -/
def fetch (parts : List String) (data : String → String) (s : State I parts.length)
    (i : Fin parts.length) : Doing (State I parts.length) (Request I String) :=
  match s.worker i with
  | .unstarted => .wait
  | .fetching => .own { s with
      worker := Function.update s.worker i .marking
      results := s.results.set (parts.get i) (data (parts.get i)) }
  | .marking => .call (.op (.markReady (.hashable (parts.get i))))
  | .finished => .wait

/-- `parallel_fan_out`, for any request, and any parts and data that are `str`. A worker that raises
has finished, too. -/
def parallelFanOut (request : I) (parts : List String) (data : String → String) :
    Requests I parts where
  next t s := t.elim (mainNext request parts s) (fetch parts data s)
  got t _ r s :=
    match t with
    | none => { s with main := mainGot s.main r }
    | some i => { s with worker := Function.update s.worker i .finished }

def State.init (n : Nat) : State I n := ⟨.admitting, fun _ => .unstarted, Dict.empty⟩

abbrev Running (I : Type) (n : Nat) :=
  State I n × Config (Option (Fin n)) (World I String) (Request I String)
    (Except (PyError I String) (Returned String))

def start (strictOrder : Bool) (n : Nat) : Running I n :=
  (State.init n, Config.init (World.init strictOrder))

/-- What is printed of the response: its id, how many parts it has, and the text of what was fetched
for them, sorted. There is nothing to print where a part has no result. -/
def respond (w : World I String) (results : Dict String String) (response : Handle) :
    Option (Value I × Nat × String) := do
  let group ← w.objects[response]?
  let found ← group.members.mapM results.get?
  return (group.groupId, group.members.length, " ".intercalate (found.mergeSort fun a b => a ≤ b))

def asked (request : I) (parts : List String) (marked : Fin parts.length → Bool) : Entry I String :=
  ⟨0, .hashable request, List.ofFn fun i => (parts.get i, marked i)⟩

variable {request : I} {parts : List String} {data : String → String}

theorem members_asked (marked : Fin parts.length → Bool) :
    (asked request parts marked).members = parts := by
  rw [Entry.members, asked, List.map_ofFn]
  exact List.ofFn_get parts

theorem ready_asked {marked : Fin parts.length → Bool} (h : ∀ i, marked i = true) :
    (asked request parts marked).ready = true := by
  simp [Entry.ready, asked, h]

theorem mark_asked (hnd : parts.Nodup) (marked : Fin parts.length → Bool) (i : Fin parts.length) :
    (asked request parts marked).mark (parts.get i) =
      asked request parts (Function.update marked i true) := by
  simp only [Entry.mark, asked, List.map_ofFn, Entry.mk.injEq, true_and]
  congr 1
  funext j
  by_cases hj : j = i
  · subst hj
    simp
  · have hne : parts.get j ≠ parts.get i := fun h => hj (hnd.injective_get h)
    rw [Function.update_of_ne hj]
    exact if_neg hne

section

variable [DecidableEq I] {w : World I String}

theorem invoke_plain (hw : Consistent w) (op : Op I String) :
    (invoke w (.op op)).1.map (Returned.shown (invoke w (.op op)).2) = (w.plain.step op).1 ∧
      (invoke w (.op op)).2.plain = (w.plain.step op).2 ∧ Consistent (invoke w (.op op)).2 := by
  have hplain := step_plain hw op
  have hconsistent := step_consistent hw op
  rw [step_eq_invoke] at hplain hconsistent
  exact ⟨congrArg Prod.fst hplain, congrArg Prod.snd hplain, hconsistent⟩

/-- Why a request is refused that has no parts, or one part twice. -/
def refusal (request : I) (parts : List String) : TitoError I String :=
  if parts = [] then .noMembers (.hashable request)
  else .duplicateMembers (.hashable request) (duplicatesOf parts)

theorem refusal_plain (strictOrder : Bool) (h : parts = [] ∨ ¬ parts.Nodup) :
    (PlainQueue.init strictOrder).refusal (.hashable request)
      (.iterable (parts.map .hashable)) = some (.tito (refusal request parts)) := by
  have hmembers : (parts.map Value.hashable).filterMap Value.toOption = parts :=
    PlainQueue.filterMap_toOption_map_hashable parts
  by_cases hnil : parts = []
  · simp [PlainQueue.refusal, refusal, hnil]
  · have hhash : ¬ ∃ v ∈ parts.map Value.hashable, isHashable v = false := by simp [isHashable]
    have hne : parts.map Value.hashable ≠ [] := mt List.map_eq_nil_iff.mp hnil
    simp only [PlainQueue.refusal, hmembers, if_neg hne, if_neg hhash, if_pos (h.resolve_left hnil),
      refusal, if_neg hnil]

/-- The request is admitted when it has parts, and none of them twice. -/
theorem admission (strictOrder : Bool) (request : I) (parts : List String) :
    let (r, w) := invoke (World.init strictOrder)
      (.op (.admitGroup (.hashable request) (.iterable (parts.map .hashable))))
    match r with
    | .ok _ => (parts ≠ [] ∧ parts.Nodup) ∧
        w.plain.waiting = [asked request parts fun _ => false]
    | .error e => (parts = [] ∨ ¬ parts.Nodup) ∧ e = .tito (refusal request parts) ∧
        w.plain.waiting = [] := by
  obtain ⟨hr, hq, -⟩ := invoke_plain (init_consistent strictOrder)
    (.admitGroup (.hashable request) (.iterable (parts.map .hashable)))
  generalize invoke (World.init strictOrder)
    (.op (.admitGroup (.hashable request) (.iterable (parts.map .hashable)))) = x at hr hq
  obtain ⟨r, w⟩ := x
  let q : PlainQueue I String := (World.init strictOrder).plain
  change _ = (q.admitGroup _ _).1 at hr
  change _ = (q.admitGroup _ _).2 at hq
  by_cases hparts : parts = [] ∨ ¬ parts.Nodup
  · have hrefusal : q.refusal (.hashable request) (.iterable (parts.map .hashable)) =
        some (.tito (refusal request parts)) := refusal_plain strictOrder hparts
    have hrefused : q.admitGroup (.hashable request) (.iterable (parts.map .hashable)) =
        (.error (.tito (refusal request parts)), q) := by
      simp only [PlainQueue.admitGroup, hrefusal]
    rw [hrefused] at hr
    rw [hrefused] at hq
    cases r with
    | ok a => cases hr
    | error e =>
      cases hr
      exact ⟨hparts, rfl, congrArg PlainQueue.waiting hq⟩
  · rw [not_or, not_not] at hparts
    have hempty : ∀ e, e ∉ q.waiting := fun e => List.not_mem_nil
    have hacc : q.Accepts request parts :=
      ⟨hparts.1, hparts.2, fun e he => absurd he (hempty e), fun _ _ => rfl⟩
    rcases q.admit_cases (.hashable request) (.iterable (parts.map .hashable)) with
      ⟨e, he⟩ | ⟨id, ms, hid, hms, -, hadm⟩
    · have haccepted := PlainQueue.admit_of_accepts hacc
      rw [he] at haccepted
      cases haccepted
    · obtain rfl := Value.hashable.inj hid
      have hparts' : parts = ms :=
        (List.map_injective_iff.mpr fun _ _ h => Value.hashable.inj h) (Members.iterable.inj hms)
      subst hparts'
      rw [hadm] at hr
      rw [hadm] at hq
      cases r with
      | error e => cases hr
      | ok a =>
        refine ⟨hparts, (congrArg PlainQueue.waiting hq).trans ?_⟩
        have hflags : (List.ofFn fun i => (parts.get i, false)) =
            parts.map fun m => (m, false) := by
          have hmap := List.map_ofFn (f := parts.get) (g := fun m => (m, false))
          rw [List.ofFn_get] at hmap
          exact hmap.symm
        exact congrArg (fun flags => [Entry.mk 0 (.hashable request) flags]) hflags.symm

theorem marked_part (hw : Consistent w) (hnd : parts.Nodup) {marked : Fin parts.length → Bool}
    (hwaiting : w.plain.waiting = [asked request parts marked]) (i : Fin parts.length) :
    (invoke w (.op (.markReady (.hashable (parts.get i))))).2.plain.waiting =
      [asked request parts (Function.update marked i true)] := by
  have hmem : parts.get i ∈ (asked request parts marked).members := by
    rw [members_asked]
    exact List.get_mem parts i
  have hin : asked request parts marked ∈ w.plain.waiting := by simp [hwaiting]
  have hof := hw.plain_valid.groupOf_eq hin hmem
  have hlook := hw.plain_valid.look_eq hin
  rw [(invoke_plain hw _).2.1]
  simp only [PlainQueue.step, PlainQueue.markReady, Value.toOption, Option.bind_some, hof,
    PlainQueue.groupMarkReady, hlook, hmem, if_true, PlainQueue.mark, hwaiting, List.map_cons,
    List.map_nil, Entry.markAt, mark_asked hnd]

omit [DecidableEq I] in
theorem group_of_shown {r : Except (PyError I String) (Returned String)} {e : Entry I String}
    (h : r.map (Returned.shown w) = .ok (.group e)) :
    ∃ k, r = .ok (.group k) ∧ w.look k = some e := by
  cases r with
  | error e => cases h
  | ok a =>
    have ha : a.shown w = .group e := Except.ok.inj h
    cases a with
    | group k =>
      refine ⟨k, rfl, ?_⟩
      cases hk : w.look k with
      | none => simp [Returned.shown, hk] at ha
      | some e' =>
        rw [Returned.shown, hk] at ha
        exact congrArg some (Answer.group.inj ha)
    | _ => cases ha

/-- What the release of the request returns, and leaves. -/
def Left (request : I) (parts : List String) (w : World I String) (h : Handle) : Prop :=
  w.plain.waiting = [] ∧ w.look h = some (asked request parts fun _ => true)

theorem released (hw : Consistent w) {marked : Fin parts.length → Bool}
    (hwaiting : w.plain.waiting = [asked request parts marked]) (hmarked : ∀ i, marked i = true) :
    ∃ h, (invoke w (.op .release)).1 = .ok (.group h) ∧
      Left request parts (invoke w (.op .release)).2 h := by
  obtain rfl : marked = fun _ => true := funext hmarked
  obtain ⟨hr, hq, -⟩ := invoke_plain hw .release
  have hready : (asked request parts fun _ => true).ready = true := ready_asked hmarked
  have hpeek : w.plain.peek = some (asked request parts fun _ => true) := by
    rw [PlainQueue.peek]
    split
    · simp [hwaiting, hready]
    · simp [hwaiting, hready]
  simp only [PlainQueue.step, hpeek, PlainQueue.shown, Option.elim_some] at hr hq
  generalize invoke w (.op .release) = x at hr hq
  obtain ⟨r, w'⟩ := x
  have hleft : w'.plain.waiting = [] := by
    rw [hq]
    simp [PlainQueue.remove, hwaiting]
  obtain ⟨h, hr', hlook⟩ := group_of_shown hr
  exact ⟨h, hr', hleft, hlook⟩

end

theorem mainNext_own {s s' : State I parts.length}
    (h : mainNext (I := I) request parts s = .own s') :
    (∃ i, ∃ hi : i < parts.length, s.main = .starting i ∧ s' = { s with
        main := .starting (i + 1)
        worker := Function.update s.worker ⟨i, hi⟩ .fetching }) ∨
      (∃ i, parts.length ≤ i ∧ s.main = .starting i ∧ s' = { s with main := .joining 0 }) ∨
      (∃ i, ∃ hi : i < parts.length, s.main = .joining i ∧ s.worker ⟨i, hi⟩ = .finished ∧
        s' = { s with main := .joining (i + 1) }) ∨
      ∃ i, parts.length ≤ i ∧ s.main = .joining i ∧ s' = { s with main := .releasing } := by
  rw [mainNext] at h
  split at h
  · cases h
  · rename_i i hs
    split at h
    · rename_i hi
      exact .inl ⟨i, hi, hs, (Doing.own.inj h).symm⟩
    · rename_i hi
      exact .inr (.inl ⟨i, Nat.le_of_not_lt hi, hs, (Doing.own.inj h).symm⟩)
  · rename_i i hs
    split at h
    · rename_i hi
      split at h
      · rename_i hf
        exact .inr (.inr (.inl ⟨i, hi, hs, hf, (Doing.own.inj h).symm⟩))
      · cases h
    · rename_i hi
      exact .inr (.inr (.inr ⟨i, Nat.le_of_not_lt hi, hs, (Doing.own.inj h).symm⟩))
  · cases h
  · cases h
  · cases h
  · cases h

theorem mainNext_call {s : State I parts.length} {k : Request I String}
    (h : mainNext request parts s = .call k) :
    (s.main = .admitting ∧
        k = .op (.admitGroup (.hashable request) (.iterable (parts.map .hashable)))) ∨
      (s.main = .releasing ∧ k = .op .release) := by
  rw [mainNext] at h
  split at h
  · rename_i hs
    exact .inl ⟨hs, (Doing.call.inj h).symm⟩
  · split at h <;> cases h
  · split at h
    · split at h <;> cases h
    · cases h
  · rename_i hs
    exact .inr ⟨hs, (Doing.call.inj h).symm⟩
  · cases h
  · cases h
  · cases h

theorem fetch_own {s s' : State I parts.length} {i : Fin parts.length}
    (h : fetch (I := I) parts data s i = .own s') :
    s.worker i = .fetching ∧ s' = { s with
      worker := Function.update s.worker i .marking
      results := s.results.set (parts.get i) (data (parts.get i)) } := by
  rw [fetch] at h
  split at h
  · cases h
  · rename_i hs
    exact ⟨hs, (Doing.own.inj h).symm⟩
  · cases h
  · cases h

theorem fetch_call {s : State I parts.length} {i : Fin parts.length} {k : Request I String}
    (h : fetch parts data s i = .call k) :
    s.worker i = .marking ∧ k = .op (.markReady (.hashable (parts.get i))) := by
  rw [fetch] at h
  split at h
  · cases h
  · cases h
  · rename_i hs
    exact ⟨hs, (Doing.call.inj h).symm⟩
  · cases h

end Tito.FanOut
