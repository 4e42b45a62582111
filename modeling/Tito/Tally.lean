import Tito.Indexes
import Mathlib.Data.List.Induction

namespace Tito

open Lib Lib.Mealy

variable {I M : Type} [DecidableEq M]

/-- `Group.mark_ready` as a machine: a call answers with what it returns or raises, and with the
callback that it runs. -/
def markStep :
    Machine (Group I M) (Value M) (Except (PyError I M) Bool × Option ReadyCallback) :=
  fun g v =>
    match g.markReady v with
    | .error e => ((.error e, none), g)
    | .ok marked => ((.ok marked.result, marked.call), marked.group)

def callbacks (g : Group I M) (vs : List (Value M)) : List ReadyCallback :=
  (answers markStep g vs).filterMap Prod.snd

/-- `vs` names every one of the members. -/
def AllNamed (ms : List M) (vs : List (Value M)) : Prop := ∀ m ∈ ms, .hashable m ∈ vs

instance (ms : List M) (vs : List (Value M)) : Decidable (AllNamed ms vs) :=
  inferInstanceAs (Decidable (∀ _ ∈ _, _))

/-- The group `g'` is `g` after calls that named `vs`. -/
structure Tallied (g : Group I M) (vs : List (Value M)) (g' : Group I M) : Prop where
  members : g'.members = g.members
  onReady : g'.onReady = g.onReady
  flags : ∀ m ∈ g.members, g'.ready.get? m = some (decide (.hashable m ∈ vs))

theorem init_flags {groupId : Value I} {members : Members M} {sequence : Nat} {g : Group I M}
    (h : Group.init groupId members sequence = .ok g) :
    ∀ m ∈ g.members, g.ready.get? m = some false := by
  cases members with
  | text t => cases h
  | notIterable => cases h
  | iterable vs =>
    rcases init_iterable groupId vs sequence with ⟨_, hi⟩ | ⟨_, _, hi⟩ | ⟨_, _, _, hi⟩ |
      ⟨ms, hne, hnd, _, hi⟩
    · rw [hi] at h
      cases h
    · rw [hi] at h
      cases h
    · rw [hi] at h
      cases h
    · rw [hi] at h
      cases h
      intro m hm
      have hget : (Group.fresh groupId ms sequence hne hnd).ready.get? m =
          if m ∈ ms then some false else none := Dict.get?_setAll ..
      rw [hget]
      exact if_pos hm

theorem tallied_nil {g : Group I M} (h : ∀ m ∈ g.members, g.ready.get? m = some false) :
    Tallied g [] g where
  members := rfl
  onReady := rfl
  flags := h

/-- What one more call of `Group.mark_ready` does after calls that named `vs`. -/
structure Heard (g : Group I M) (vs : List (Value M)) (v : Value M)
    (heard : (Except (PyError I M) Bool × Option ReadyCallback) × Group I M) : Prop where
  next : Tallied g (vs ++ [v]) heard.2
  raises : (∃ t, heard.1.1 = .error (.tito t)) ↔ ∀ m ∈ g.members, v ≠ .hashable m
  returns : ∀ m ∈ g.members, v = .hashable m →
    heard.1.1 = .ok (decide (AllNamed g.members (vs ++ [v])))
  calls : heard.1.2 =
    if AllNamed g.members (vs ++ [v]) ∧ ¬ AllNamed g.members vs then g.onReady else none

namespace Tallied

variable {g g' : Group I M} {vs : List (Value M)} (h : Tallied g vs g')

include h

theorem get?_of_not_mem {m : M} (hm : m ∉ g.members) : g'.ready.get? m = none := by
  rw [Dict.get?_eq_none_iff, g'.keys_ready, h.members]
  exact hm

theorem complete_iff : g'.isReady = true ↔ AllNamed g.members vs := by
  rw [g'.isReady_iff_complete, Group.Complete, h.members]
  refine forall₂_congr fun m hm => ?_
  rw [h.flags m hm, Option.some.injEq, decide_eq_true_iff]

theorem readyMembers_eq : g'.readyMembers = g.members.filter fun m => .hashable m ∈ vs := by
  rw [Group.readyMembers, h.members]
  refine List.filter_congr fun m hm => ?_
  rw [h.flags m hm]
  simp

theorem waitingMembers_eq : g'.waitingMembers = g.members.filter fun m => .hashable m ∉ vs := by
  rw [Group.waitingMembers, h.members]
  refine List.filter_congr fun m hm => ?_
  rw [h.flags m hm]
  simp

theorem readyCount_eq :
    g'.readyCount = (g.members.filter fun m => .hashable m ∈ vs).length := by
  rw [g'.readyCount_eq, ← h.readyMembers_eq]
  rfl

theorem unchanged {v : Value M} (hv : ∀ m ∈ g.members, v = .hashable m → .hashable m ∈ vs) :
    Tallied g (vs ++ [v]) g' := by
  refine ⟨h.members, h.onReady, fun m hm => ?_⟩
  rw [h.flags m hm]
  refine congrArg some (decide_eq_decide.mpr ?_)
  rw [List.mem_append, List.mem_singleton]
  exact ⟨Or.inl, fun hn => hn.elim id fun hk => hv m hm hk.symm⟩

theorem flag {m : M} (hm : g'.ready.get? m = some false) :
    Tallied g (vs ++ [.hashable m]) (g'.flag m hm) := by
  refine ⟨h.members, h.onReady, fun k hk => ?_⟩
  have hget : (g'.flag m hm).ready.get? k = if k = m then some true else g'.ready.get? k :=
    Dict.get?_set ..
  rw [hget, h.flags k hk]
  by_cases hkm : k = m
  · simp [hkm]
  · have hne : Value.hashable k ≠ .hashable m := fun he => hkm (Value.hashable.inj he)
    simp [hkm, hne]

theorem heard_of_foreign {v : Value M} (hv : ∀ m ∈ g.members, v ≠ .hashable m) {t : TitoError I M}
    (ht : g'.markReady v = .error (.tito t)) : Heard g vs v (markStep g' v) := by
  have hnext := h.unchanged fun m hm hk => absurd hk (hv m hm)
  have hall : AllNamed g.members (vs ++ [v]) ↔ AllNamed g.members vs := by
    rw [← hnext.complete_iff, h.complete_iff]
  have hs : markStep g' v = ((.error (.tito t), none), g') := by rw [markStep, ht]
  rw [hs]
  refine ⟨hnext, ⟨fun _ => hv, fun _ => ⟨t, rfl⟩⟩, fun m hm hk => absurd hk (hv m hm), ?_⟩
  exact (if_neg fun hc => hc.2 (hall.mp hc.1)).symm

theorem heard_of_repeated {m : M} (hm : m ∈ g.members) (hold : .hashable m ∈ vs) :
    Heard g vs (.hashable m) (markStep g' (.hashable m)) := by
  have hnext := h.unchanged (v := .hashable m) fun k _ hk => hk ▸ hold
  have hall : AllNamed g.members (vs ++ [.hashable m]) ↔ AllNamed g.members vs := by
    rw [← hnext.complete_iff, h.complete_iff]
  have hflag := h.flags m hm
  rw [decide_eq_true hold] at hflag
  have hs : markStep g' (.hashable m) = ((.ok g'.isReady, none), g') := by
    rw [markStep, markReady_of_true hflag]
  rw [hs]
  refine ⟨hnext, ⟨fun ⟨t, ht⟩ => (nomatch ht), fun hv => absurd rfl (hv m hm)⟩, fun _ _ _ => ?_, ?_⟩
  · refine congrArg Except.ok (Bool.eq_iff_iff.mpr ?_)
    rw [hnext.complete_iff, decide_eq_true_iff]
  · exact (if_neg fun hc => hc.2 (hall.mp hc.1)).symm

theorem heard_of_first {m : M} (hm : m ∈ g.members) (hnew : .hashable m ∉ vs) :
    Heard g vs (.hashable m) (markStep g' (.hashable m)) := by
  have hflag := h.flags m hm
  rw [decide_eq_false hnew] at hflag
  have hnext := h.flag hflag
  have hs : markStep g' (.hashable m) = ((.ok (g'.flag m hflag).isReady,
      if (g'.flag m hflag).isReady = true then g'.onReady else none), g'.flag m hflag) := by
    rw [markStep, markReady_of_false hflag]
  have hmissing : ¬ AllNamed g.members vs := fun hall => hnew (hall m hm)
  rw [hs]
  refine ⟨hnext, ⟨fun ⟨t, ht⟩ => (nomatch ht), fun hv => absurd rfl (hv m hm)⟩, fun _ _ _ => ?_, ?_⟩
  · refine congrArg Except.ok (Bool.eq_iff_iff.mpr ?_)
    rw [hnext.complete_iff, decide_eq_true_iff]
  · simp only [hnext.complete_iff, hmissing, not_false_eq_true, and_true, h.onReady]

theorem step (v : Value M) : Heard g vs v (markStep g' v) := by
  cases v with
  | unhashable t => exact h.heard_of_foreign (fun _ _ hk => nomatch hk) rfl
  | hashable m =>
    by_cases hm : m ∈ g.members
    · by_cases hold : .hashable m ∈ vs
      · exact h.heard_of_repeated hm hold
      · exact h.heard_of_first hm hold
    · have hforeign : ∀ k ∈ g.members, Value.hashable m ≠ .hashable k :=
        fun k hk he => hm (Value.hashable.inj he ▸ hk)
      exact h.heard_of_foreign hforeign (markReady_of_none (h.get?_of_not_mem hm))

end Tallied

/-- After any calls the group is tallied up to them, and its callback has run once if they named
all of its members, and never otherwise. -/
theorem tallied_final {g : Group I M} (h : Tallied g [] g) (vs : List (Value M)) :
    Tallied g vs (final markStep g vs) ∧
      callbacks g vs = if AllNamed g.members vs then g.onReady.toList else [] := by
  induction vs using List.reverseRecOn with
  | nil =>
    have hnot : ¬ AllNamed g.members [] := by
      obtain ⟨m, hm⟩ := List.exists_mem_of_ne_nil _ g.members_ne_nil
      exact fun hall => List.not_mem_nil (hall m hm)
    exact ⟨h, (if_neg hnot).symm⟩
  | append_singleton vs v ih =>
    obtain ⟨htally, hcalls⟩ := ih
    have hheard := htally.step v
    have hlast : callbacks g (vs ++ [v]) =
        callbacks g vs ++ (markStep (final markStep g vs) v).1.2.toList := by
      rw [callbacks, answers_append, List.filterMap_append, ← callbacks]
      refine congrArg _ ?_
      rw [answers, answers]
      cases hc : (markStep (final markStep g vs) v).1.2 with
      | none => rw [List.filterMap_cons_none hc]; rfl
      | some c => rw [List.filterMap_cons_some hc]; rfl
    refine ⟨by rw [final_append]; exact hheard.next, ?_⟩
    rw [hlast, hcalls, hheard.calls]
    by_cases hold : AllNamed g.members vs
    · have hall : AllNamed g.members (vs ++ [v]) := fun m hm => List.mem_append_left _ (hold m hm)
      simp [hold, hall]
    · by_cases hall : AllNamed g.members (vs ++ [v])
      · simp [hold, hall]
      · simp [hold, hall]

/-- Of every group that can be built, after any calls of `Group.mark_ready`: the count, the ready
and the waiting members are those of the members named so far, and no mark is ever lost. The next
call raises `TitoError` exactly when its argument is not a member, and answers otherwise whether
all members have been named. The callback runs in the call that names the last missing member,
once in all, and never while one is missing. -/
theorem marks_tallied {groupId : Value I} {members : Members M} {sequence : Nat} {g : Group I M}
    (hg : Group.init groupId members sequence = .ok g) (callback : Option ReadyCallback)
    (vs : List (Value M)) :
    let start := { g with onReady := callback }
    let g' := final markStep start vs
    (g'.readyCount = (g.members.filter fun m => .hashable m ∈ vs).length ∧
      g'.readyMembers = (g.members.filter fun m => .hashable m ∈ vs) ∧
      g'.waitingMembers = (g.members.filter fun m => .hashable m ∉ vs)) ∧
    (∀ later, ∀ m ∈ g'.readyMembers, m ∈ (final markStep g' later).readyMembers) ∧
    (∀ v, ((∃ t, (markStep g' v).1.1 = .error (.tito t)) ↔ ∀ m ∈ g.members, v ≠ .hashable m) ∧
      (∀ m ∈ g.members, v = .hashable m →
        (markStep g' v).1.1 = .ok (decide (AllNamed g.members (vs ++ [v])))) ∧
      (markStep g' v).1.2 =
        if AllNamed g.members (vs ++ [v]) ∧ ¬ AllNamed g.members vs then callback else none) ∧
    callbacks start vs = if AllNamed g.members vs then callback.toList else [] := by
  intro start g'
  have hflags := init_flags hg
  have hstart : Tallied start [] start := tallied_nil hflags
  obtain ⟨htally, hcalls⟩ := tallied_final hstart vs
  refine ⟨⟨htally.readyCount_eq, htally.readyMembers_eq, htally.waitingMembers_eq⟩, ?_, fun v => ?_,
    hcalls⟩
  · intro later m hm
    have hlater := (tallied_final hstart (vs ++ later)).1
    rw [final_append] at hlater
    rw [htally.readyMembers_eq, List.mem_filter, decide_eq_true_iff] at hm
    rw [hlater.readyMembers_eq, List.mem_filter, decide_eq_true_iff]
    exact ⟨hm.1, List.mem_append_left _ hm.2⟩
  · obtain ⟨-, hraises, hreturns, hcall⟩ := htally.step v
    exact ⟨hraises, hreturns, hcall⟩

/-- A member named twice, a stranger and an unhashable value in between. -/
theorem marks_tallied_mixed :
    let g : Group Nat Nat := Group.fresh (.hashable 7) [1, 2] 0 (by decide) (by decide)
    let vs : List (Value Nat) :=
      [.hashable 1, .unhashable "[]", .hashable 3, .hashable 1, .hashable 2]
    let start := { g with onReady := some .noteReady }
    callbacks start vs = [.noteReady] := by
  intro g vs start
  have hg : Group.init (.hashable 7) (.iterable [.hashable 1, .hashable 2]) 0 = .ok g := rfl
  exact (marks_tallied hg (some .noteReady) vs).2.2.2

end Tito
