import Tito.Indexes
import Tito.Line

namespace Tito

open Lib Lib.Mealy

variable {I M : Type}

/-- An admission as the documentation asks for it. -/
structure Admissible (w : World I M) (groupId : Value I) (members : Members M) : Prop where
  elements : ∃ vs, members = .iterable vs ∧ vs ≠ [] ∧ (∀ v ∈ vs, isHashable v = true) ∧ vs.Nodup ∧
    ∀ h g, w.Waits h g → ∀ m ∈ g.members, .hashable m ∉ vs
  hashable_id : isHashable groupId = true
  free_id : ∀ h g, w.Waits h g → g.groupId ≠ groupId

theorem map_hashable_of_all {vs : List (Value M)} (h : ∀ v ∈ vs, isHashable v = true) :
    ∃ ms : List M, vs = ms.map .hashable := by
  have hn : hashAll vs ≠ none := by
    intro hn
    obtain ⟨v, hv, hf⟩ := hashAll_eq_none.mp hn
    exact Bool.false_ne_true (hf.symm.trans (h v hv))
  obtain ⟨ms, hms⟩ := Option.ne_none_iff_exists'.mp hn
  exact ⟨ms, hashAll_eq_some.mp hms⟩

theorem nodup_map_hashable {ms : List M} : (ms.map Value.hashable).Nodup ↔ ms.Nodup :=
  List.nodup_map_iff fun _ _ h => Value.hashable.inj h

variable [DecidableEq I] [DecidableEq M]

namespace PlainQueue

theorem admit_of_accepts {q : PlainQueue I M} {id : I} {ms : List M} (h : q.Accepts id ms) :
    (q.admitGroup (.hashable id) (.iterable (ms.map .hashable))).1 =
      .ok (.group (q.arrival id ms)) := by
  have hid : ¬ ∃ e ∈ q.waiting, e.groupId = .hashable id := by
    rintro ⟨e, he, hk⟩
    exact h.id_free e he hk
  have hqueued : ms.filter (fun m => (q.groupOf m).isSome) = [] :=
    List.filter_eq_nil_iff.mpr fun m hm => by simp [h.members_free m hm]
  have hr := refusal_map_hashable q (.hashable id) h.ne_nil
  rw [if_neg (not_not.mpr h.nodup)] at hr
  simp only [hid, if_false, hqueued, ne_eq, not_true_eq_false] at hr
  simp only [admitGroup, hr, filterMap_toOption_map_hashable]
  rfl

theorem refusal_kind {q : PlainQueue I M} {groupId : Value I} {members : Members M}
    {e : PyError I M} (h : q.refusal groupId members = some e) :
    if members = .notIterable then e = .typeError else ∃ t, e = .tito t := by
  cases members with
  | text t => exact ⟨_, (Option.some.inj h).symm⟩
  | notIterable => exact (Option.some.inj h).symm
  | iterable vs =>
    rw [if_neg (by simp)]
    simp only [refusal] at h
    split at h
    · exact ⟨_, (Option.some.inj h).symm⟩
    split at h
    · exact ⟨_, (Option.some.inj h).symm⟩
    split at h
    · exact ⟨_, (Option.some.inj h).symm⟩
    cases groupId with
    | unhashable t => exact ⟨_, (Option.some.inj h).symm⟩
    | hashable id =>
      dsimp only at h
      split at h
      · exact ⟨_, (Option.some.inj h).symm⟩
      split at h
      · exact ⟨_, (Option.some.inj h).symm⟩
      · cases h

theorem admit_error_kind {q : PlainQueue I M} {groupId : Value I} {members : Members M}
    {e : PyError I M} (h : (q.admitGroup groupId members).1 = .error e) :
    if members = .notIterable then e = .typeError else ∃ t, e = .tito t := by
  cases hr : q.refusal groupId members with
  | some e' =>
    simp only [admitGroup, hr] at h
    cases h
    exact refusal_kind hr
  | none =>
    cases members with
    | text t => cases hr
    | notIterable => cases hr
    | iterable vs =>
      simp only [admitGroup, hr] at h
      cases h

end PlainQueue

/-- The documented conditions are those under which the line takes the group in. -/
theorem admissible_iff_accepts {w : World I M} (hw : Consistent w) {groupId : Value I}
    {members : Members M} : Admissible w groupId members ↔ ∃ id ms, groupId = .hashable id ∧
      members = .iterable (ms.map .hashable) ∧ w.plain.Accepts id ms := by
  have hof : ∀ m, w.plain.groupOf m = none ↔ ∀ h g, w.Waits h g → m ∉ g.members := by
    intro m
    constructor
    · rintro hn h g ⟨hg, hh⟩ hm
      obtain ⟨id, hid⟩ := Dict.mem_values_iff.mp hh
      have hi := (hw.indexed m id).mpr ⟨h, g, hid, hg, hm⟩
      have hs := plain_groupOf_isSome hw.toRegistered m
      rw [hn, Dict.contains, hi] at hs
      cases hs
    · intro hno
      refine List.find?_eq_none.mpr fun e he hk => ?_
      obtain ⟨hh, hl⟩ := World.mem_waiting.mp he
      obtain ⟨g, hg, hge⟩ := World.look_eq_some.mp hl
      refine hno e.handle g ⟨hg, hh⟩ ?_
      rw [← g.members_entry e.handle, hge]
      exact of_decide_eq_true hk
  have hids : ∀ id : I, (∀ e ∈ w.plain.waiting, e.groupId ≠ .hashable id) ↔
      ∀ h g, w.Waits h g → g.groupId ≠ .hashable id := by
    intro id
    constructor
    · rintro hno h g ⟨hg, hh⟩ hk
      exact hno (g.entry h) (World.mem_waiting.mpr ⟨hh, World.look_eq_some.mpr ⟨g, hg, rfl⟩⟩) hk
    · intro hno e he hk
      obtain ⟨hh, hl⟩ := World.mem_waiting.mp he
      obtain ⟨g, hg, hge⟩ := World.look_eq_some.mp hl
      exact hno e.handle g ⟨hg, hh⟩ (by rw [← hk, ← hge]; rfl)
  constructor
  · rintro ⟨⟨vs, rfl, hne, hall, hnd, hfree⟩, hhash, hid⟩
    obtain ⟨ms, rfl⟩ := map_hashable_of_all hall
    cases groupId with
    | unhashable t => cases hhash
    | hashable id =>
      refine ⟨id, ms, rfl, rfl, fun hn => hne (by rw [hn]; rfl), nodup_map_hashable.mp hnd,
        (hids id).mpr hid, fun m hm => (hof m).mpr fun h g hg hmg => ?_⟩
      exact hfree h g hg m hmg (List.mem_map_of_mem hm)
  · rintro ⟨id, ms, rfl, rfl, ha⟩
    refine ⟨⟨ms.map .hashable, rfl, ?_, ?_, nodup_map_hashable.mpr ha.nodup, ?_⟩, rfl,
      (hids id).mp ha.id_free⟩
    · simpa using ha.ne_nil
    · simp [isHashable]
    · rintro h g hg m hmg hm
      obtain ⟨m', hm', he⟩ := List.mem_map.mp hm
      obtain rfl := Value.hashable.inj he
      exact (hof m').mp (ha.members_free m' hm') h g hg hmg

theorem admit_ok_iff {w : World I M} (hw : Consistent w) (groupId : Value I)
    (members : Members M) :
    (∃ e, (step w (.admitGroup groupId members)).1 = .ok (.group e)) ↔
      Admissible w groupId members := by
  have hstep : (step w (.admitGroup groupId members)).1 = (w.plain.admitGroup groupId members).1 :=
    congrArg Prod.fst (step_plain hw (.admitGroup groupId members))
  rw [hstep, admissible_iff_accepts hw]
  constructor
  · rintro ⟨e, he⟩
    rcases w.plain.admit_cases groupId members with ⟨err, ha⟩ | ⟨id, ms, hid, hms, hacc, -⟩
    · rw [ha] at he
      cases he
    · exact ⟨id, ms, hid, hms, hacc⟩
  · rintro ⟨id, ms, rfl, rfl, hacc⟩
    exact ⟨_, PlainQueue.admit_of_accepts hacc⟩

/-- What the documentation promises of an `admit` call: it returns a group exactly when it is
proper, and raises `TitoError` otherwise. -/
def OneFailureMode (w : World I M) (groupId : Value I) (members : Members M) : Prop :=
  ((∃ e, (step w (.admitGroup groupId members)).1 = .ok (.group e)) ↔ Admissible w groupId members) ∧
    ((∃ e, (step w (.admitGroup groupId members)).1 = .ok (.group e)) ∨
      ∃ t, (step w (.admitGroup groupId members)).1 = .error (.tito t))

/-- In every reachable state `admit` keeps its promise exactly when `members` is a string or an
iterable: what cannot be iterated at all escapes as a `TypeError` of Python's own. -/
theorem admit_one_failure_mode_iff (strictOrder : Bool) (ops : List (Op I M)) (groupId : Value I)
    (members : Members M) :
    OneFailureMode (final step (World.init strictOrder) ops) groupId members ↔
      members ≠ .notIterable := by
  have hw : Consistent (final step (World.init strictOrder) ops) :=
    consistent_of_reachable ⟨ops, rfl⟩
  generalize final step (World.init strictOrder) ops = w at hw
  have hstep : (step w (.admitGroup groupId members)).1 = (w.plain.admitGroup groupId members).1 :=
    congrArg Prod.fst (step_plain hw (.admitGroup groupId members))
  constructor
  · rintro ⟨-, ⟨e, he⟩ | ⟨t, ht⟩⟩ rfl
    · rw [hstep] at he
      cases he
    · rw [hstep] at ht
      cases ht
  · intro hiter
    refine ⟨admit_ok_iff hw groupId members, ?_⟩
    rw [hstep]
    rcases w.plain.admit_cases groupId members with ⟨err, ha⟩ | ⟨id, ms, -, -, -, ha⟩
    · have hkind := PlainQueue.admit_error_kind (congrArg Prod.fst ha)
      rw [if_neg hiter] at hkind
      obtain ⟨t, rfl⟩ := hkind
      exact Or.inr ⟨t, congrArg Prod.fst ha⟩
    · exact Or.inl ⟨_, congrArg Prod.fst ha⟩

/-- `admit(0, 5)` raises `TypeError`. -/
theorem admit_type_error :
    (step (World.init true) (.admitGroup (.hashable 0) .notIterable : Op Nat Nat)).1 =
        .error .typeError ∧
      ¬ OneFailureMode (World.init true : World Nat Nat) (.hashable 0) .notIterable := by
  refine ⟨by decide, ?_⟩
  rintro ⟨-, ⟨e, he⟩ | ⟨t, ht⟩⟩
  · revert he
    exact fun he => nomatch he
  · exact nomatch ht

end Tito
