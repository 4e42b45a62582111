import Tito.Indexes
import Tito.Line
import Mathlib.Data.List.Flatten
import Mathlib.Logic.Function.Basic

namespace Tito

open Lib Lib.Mealy Lib.Search

variable {C I M : Type} [DecidableEq M]

/-- An `admit` between its two parts: the group is built, the lock not yet taken. -/
structure Building (I M : Type) [DecidableEq M] where
  groupId : Value I
  members : Members M
  id : I
  group : Group I M
  built : admitBuild groupId members = .ok (id, group)

/-- A call that has returned or raised, with its caller. -/
structure Record (C I M : Type) where
  caller : C
  op : Op I M
  outcome : Outcome I M

/-- One queue and the callers that share it. -/
structure System (C I M : Type) [DecidableEq M] where
  queue : World I M
  building : C → Option (Building I M)
  log : List (Record C I M)

def System.init (strictOrder : Bool) : System C I M := ⟨World.init strictOrder, fun _ => none, []⟩

variable [DecidableEq C] [DecidableEq I]

def commit (id : I) (group : Group I M) : Py I M (Answer I M) := do
  showGroup (some (← admitCommit id group))

/-- One step of one caller. Each section under the lock is one step, and `admit` is two, with
room for the steps of others in between. -/
inductive System.Step : System C I M → System C I M → Prop
  | refuse {s : System C I M} (c : C) (groupId : Value I) (members : Members M) {e : PyError I M}
      (idle : s.building c = none) (refused : admitBuild groupId members = .error e) :
      Step s { s with log := s.log ++ [⟨c, .admitGroup groupId members, .error e⟩] }
  | build {s : System C I M} (c : C) (groupId : Value I) (members : Members M) {id : I}
      {group : Group I M} (idle : s.building c = none)
      (built : admitBuild groupId members = .ok (id, group)) :
      Step s { s with
        building := Function.update s.building c (some ⟨groupId, members, id, group, built⟩) }
  | commit {s : System C I M} (c : C) {b : Building I M} (building : s.building c = some b) :
      Step s {
        queue := (attempt (commit b.id b.group) s.queue).2
        building := Function.update s.building c none
        log := s.log ++ [⟨c, .admitGroup b.groupId b.members,
          (attempt (commit b.id b.group) s.queue).1⟩] }
  | call {s : System C I M} (c : C) (op : Op I M) (idle : s.building c = none)
      (whole : ∀ groupId members, op ≠ .admitGroup groupId members) :
      Step s { s with
        queue := (step s.queue op).2
        log := s.log ++ [⟨c, op, (step s.queue op).1⟩] }

/-- The states that some interleaving of the callers' steps leads to. -/
def System.Reachable (strictOrder : Bool) (s : System C I M) : Prop :=
  Relation.ReflTransGen System.Step (System.init strictOrder) s

/-- Every group that a call has handed out, with the caller of that call. -/
def departures (log : List (Record C I M)) : List (C × Entry I M) :=
  log.flatMap fun r => (handedOut r.op r.outcome).map fun e => (r.caller, e)

def admissionsOf (log : List (Record C I M)) : List (Entry I M) :=
  log.flatMap fun r => admitted r.op r.outcome

def departuresOf (h : Handle) (log : List (Record C I M)) : List (C × Entry I M) :=
  (departures log).filter fun d => d.2.handle = h

omit [DecidableEq C] [DecidableEq I] [DecidableEq M] in
theorem map_snd_departures_concat (log : List (Record C I M)) (r : Record C I M) :
    (departures (log ++ [r])).map Prod.snd =
      (departures log).map Prod.snd ++ handedOut r.op r.outcome := by
  simp [departures, Function.comp_def]

omit [DecidableEq C] [DecidableEq I] [DecidableEq M] in
theorem admissionsOf_concat (log : List (Record C I M)) (r : Record C I M) :
    admissionsOf (log ++ [r]) = admissionsOf log ++ admitted r.op r.outcome := by
  simp [admissionsOf]

omit [DecidableEq C] in
/-- Committing a group that was built earlier is a whole `admit` made now. -/
theorem attempt_commit {groupId : Value I} {members : Members M} {id : I} {group : Group I M}
    (h : admitBuild groupId members = .ok (id, group)) (w : World I M) :
    attempt (commit id group) w = step w (.admitGroup groupId members) := by
  simp only [step, perform, admitGroup, h]
  rfl

namespace System

/-- What the log of a shared queue says about its groups. -/
structure Sound (s : System C I M) : Prop where
  consistent : Consistent s.queue
  conserved : (((departures s.log).map Prod.snd ++ s.queue.plain.waiting).map Entry.ticket).Perm
    ((admissionsOf s.log).map Entry.ticket)
  numbered : (admissionsOf s.log).map Entry.handle = List.range s.queue.plain.arrivals
  given : ∀ r ∈ s.log, ∀ groupId members e, r.op = .admitGroup groupId members →
    r.outcome = .ok (.group e) →
      e.groupId = groupId ∧ members = .iterable (e.members.map .hashable)
  released : ∀ r ∈ s.log, r.op = .release ∨ r.op = .releaseAll →
    ∀ e ∈ handedOut r.op r.outcome, e.ready = true

omit [DecidableEq C] in
theorem init_sound (strictOrder : Bool) : (init strictOrder : System C I M).Sound where
  consistent := init_consistent strictOrder
  conserved := List.Perm.refl _
  numbered := rfl
  given := by simp [init]
  released := by simp [init]

omit [DecidableEq C] in
theorem Sound.step {s : System C I M} (hs : s.Sound) (c : C) (op : Op I M)
    (building : C → Option (Building I M)) :
    Sound {
      queue := (Tito.step s.queue op).2
      building := building
      log := s.log ++ [⟨c, op, (Tito.step s.queue op).1⟩] } := by
  have hw := hs.consistent
  have hp := step_plain hw op
  have hout : (Tito.step s.queue op).1 = (s.queue.plain.step op).1 := by rw [← hp]
  have hc := step_conserved hw op
  refine ⟨step_consistent hw op, ?_, ?_, ?_, ?_⟩
  · have hperm := hc.perm
    rw [List.map_append, List.map_append] at hperm
    have hbefore := hs.conserved
    rw [List.map_append] at hbefore
    rw [map_snd_departures_concat, admissionsOf_concat, List.append_assoc, List.map_append,
      List.map_append, List.map_append]
    refine (List.Perm.append_left _ hperm).trans ?_
    rw [← List.append_assoc]
    exact hbefore.append_right _
  · rw [admissionsOf_concat, List.map_append, hs.numbered, hc.numbered, hc.counted,
      List.range_eq_range',
      List.range_eq_range', ← List.range'_append_1, Nat.zero_add]
  · intro r hr groupId members e hop he
    rcases List.mem_append.mp hr with hr | hr
    · exact hs.given r hr groupId members e hop he
    · rw [List.mem_singleton.mp hr] at hop he
      obtain rfl : op = .admitGroup groupId members := hop
      have ha : (s.queue.plain.admitGroup groupId members).1 = .ok (.group e) := hout.symm.trans he
      exact PlainQueue.admit_given ha
  · intro r hr hop
    rcases List.mem_append.mp hr with hr | hr
    · exact hs.released r hr hop
    · rw [List.mem_singleton.mp hr] at hop ⊢
      dsimp only
      rw [hout]
      exact PlainQueue.step_released hop

theorem Step.sound {s s' : System C I M} (h : Step s s') (hs : s.Sound) : s'.Sound := by
  cases h with
  | @refuse c groupId members e _ refused =>
    have hstep : Tito.step s.queue (.admitGroup groupId members) = (.error e, s.queue) :=
      step_of_error (admit_run_of_error refused)
    have hs' := hs.step c (.admitGroup groupId members) s.building
    rwa [hstep] at hs'
  | build => exact ⟨hs.consistent, hs.conserved, hs.numbered, hs.given, hs.released⟩
  | @commit c b _ =>
    rw [attempt_commit b.built]
    exact hs.step c _ _
  | call c op => exact hs.step c op _

theorem Reachable.sound {strictOrder : Bool} {s : System C I M} (h : Reachable strictOrder s) :
    s.Sound := by
  induction h with
  | refl => exact init_sound strictOrder
  | tail _ hstep ih => exact hstep.sound ih

omit [DecidableEq C] in
theorem Sound.waits_or_departed {s : System C I M} (hs : s.Sound) {e : Entry I M}
    (he : e ∈ admissionsOf s.log) :
    (e.handle ∈ s.queue.groups.values ∧ departuresOf e.handle s.log = []) ∨
      (e.handle ∉ s.queue.groups.values ∧ ∃ c e', departuresOf e.handle s.log = [(c, e')] ∧
        e'.ticket = e.ticket) := by
  have hvals := hs.consistent.map_handle_waiting
  have hperm := hs.conserved.map Prod.fst
  rw [List.map_map, List.map_map, show Prod.fst ∘ Entry.ticket = Entry.handle from rfl,
    List.map_append, hvals] at hperm
  have hnd := hperm.nodup_iff.mpr (hs.numbered ▸ List.nodup_range)
  obtain ⟨hdep, -, hdisj⟩ := List.nodup_append.mp hnd
  rw [List.map_map] at hdep hdisj
  have apart : ∀ d ∈ departures s.log, d.2.handle ∉ s.queue.groups.values := fun d hd hv =>
    hdisj _ (List.mem_map_of_mem hd) _ hv rfl
  have hticket := hs.conserved.mem_iff.mpr (List.mem_map_of_mem he)
  obtain ⟨e', he', ht⟩ := List.mem_map.mp hticket
  have hh : e'.handle = e.handle := congrArg Prod.fst ht
  rcases List.mem_append.mp he' with hin | hwait
  · obtain ⟨d, hd, rfl⟩ := List.mem_map.mp hin
    refine Or.inr ⟨hh ▸ apart d hd, d.1, d.2, ?_, ht⟩
    rw [departuresOf, ← hh]
    exact filter_eq_singleton hdep hd
  · have hv : e.handle ∈ s.queue.groups.values := by
      rw [← hvals, ← hh]
      exact List.mem_map_of_mem hwait
    refine Or.inl ⟨hv, List.filter_eq_nil_iff.mpr fun d hd hk => apart d hd ?_⟩
    rw [of_decide_eq_true hk]
    exact hv

end System

/-- However the callers' steps interleave, every admitted group is waiting and handed out by no
call, or it is not waiting and was handed out by one call of one caller, with the id and the
members that its `admit` was given; and releases handed out complete groups only. -/
theorem handed_out_once (strictOrder : Bool) {s : System C I M}
    (hs : System.Reachable strictOrder s) :
    (∀ r ∈ s.log, ∀ groupId members e, r.op = .admitGroup groupId members →
      r.outcome = .ok (.group e) →
      (e.handle ∈ s.queue.groups.values ∧ departuresOf e.handle s.log = []) ∨
      (e.handle ∉ s.queue.groups.values ∧ ∃ c e', departuresOf e.handle s.log = [(c, e')] ∧
        e'.groupId = groupId ∧ members = .iterable (e'.members.map .hashable))) ∧
    ∀ r ∈ s.log, r.op = .release ∨ r.op = .releaseAll →
      ∀ e ∈ handedOut r.op r.outcome, ∀ f ∈ e.flags, f.2 = true := by
  have hsound := hs.sound
  refine ⟨?_, ?_⟩
  · intro r hr groupId members e hop he
    have hmem : e ∈ admissionsOf s.log :=
      List.mem_flatMap.mpr ⟨r, hr, by rw [hop, he]; exact List.mem_singleton.mpr rfl⟩
    obtain ⟨hid, hms⟩ := hsound.given r hr groupId members e hop he
    refine (hsound.waits_or_departed hmem).imp_right fun hd => ?_
    obtain ⟨hout, c, e', hc, ht⟩ := hd
    refine ⟨hout, c, e', hc, ?_, ?_⟩
    · exact (congrArg (fun t => t.2.1) ht).trans hid
    · rw [hms, show e'.members = e.members from congrArg (fun t => t.2.2) ht]
  · intro r hr hop e he
    exact List.all_eq_true.mp (hsound.released r hr hop e he)

/-- Two callers: one admits a group, the other marks its member and releases it in between
building and committing a group with the same id. -/
theorem handed_out_once_two_callers :
    ∃ s : System Bool Nat Nat, System.Reachable true s ∧
      s.log.map (fun r => (r.caller, r.op, r.outcome)) =
        [(true, .admitGroup (.hashable 7) (.iterable [.hashable 1]),
            .ok (.group ⟨0, .hashable 7, [(1, false)]⟩)),
          (false, .markReady (.hashable 1), .ok (.bool true)),
          (false, .release, .ok (.group ⟨0, .hashable 7, [(1, true)]⟩)),
          (true, .admitGroup (.hashable 7) (.iterable [.hashable 1]),
            .ok (.group ⟨1, .hashable 7, [(1, false)]⟩))] ∧
      departuresOf 0 s.log = [(false, ⟨0, .hashable 7, [(1, true)]⟩)] ∧
      departuresOf 1 s.log = [] ∧ s.queue.groups.values = [1] ∧
      ((∀ r ∈ s.log, ∀ groupId members e, r.op = .admitGroup groupId members →
        r.outcome = .ok (.group e) →
        (e.handle ∈ s.queue.groups.values ∧ departuresOf e.handle s.log = []) ∨
        (e.handle ∉ s.queue.groups.values ∧ ∃ c e', departuresOf e.handle s.log = [(c, e')] ∧
          e'.groupId = groupId ∧ members = .iterable (e'.members.map .hashable))) ∧
      ∀ r ∈ s.log, r.op = .release ∨ r.op = .releaseAll →
        ∀ e ∈ handedOut r.op r.outcome, ∀ f ∈ e.flags, f.2 = true) := by
  have h₁ : System.Reachable true _ := Relation.ReflTransGen.single
    (System.Step.build true (.hashable 7) (.iterable [.hashable 1]) rfl rfl)
  have h₂ := h₁.tail (.commit true rfl)
  have h₃ := h₂.tail (.build true (.hashable 7) (.iterable [.hashable 1]) rfl rfl)
  have h₄ := h₃.tail (.call false (.markReady (.hashable 1)) rfl (by simp))
  have h₅ := h₄.tail (.call false .release rfl (by simp))
  have h₆ := h₅.tail (.commit true rfl)
  exact ⟨_, h₆, by decide, by decide, by decide, by decide, handed_out_once true h₆⟩

end Tito
