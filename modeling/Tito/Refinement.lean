import Tito.Peeking

namespace Tito

open Lib Lib.Mealy

variable {I M : Type} [DecidableEq I] [DecidableEq M]

theorem groupOf_simulated {w : World I M} (hw : Consistent w) (v : Value M) :
    Simulated w (.groupOf v) := by
  have hof : v.toOption.bind w.plain.groupOf =
      (v.toOption.bind fun m => (w.memberIndex.get? m).bind w.groups.get?).bind w.look := by
    rw [Option.bind_assoc, funext hw.plain_groupOf]
  refine .of_ok (a := (v.toOption.bind w.plain.groupOf).elim .none .group) ?_ hw rfl (.refl _ w)
  simp [perform, groupOf_run hw.toRegistered, showGroup_run_eq hof]

theorem contains_simulated {w : World I M} (hw : Consistent w) (v : Value M) :
    Simulated w (.contains v) := by
  refine .of_ok (a := .bool (v.toOption.bind w.plain.groupOf).isSome) ?_ hw rfl (.refl _ w)
  cases v with
  | unhashable t => rfl
  | hashable m =>
    simp [perform, contains, Value.toOption, plain_groupOf_isSome hw.toRegistered]

theorem groups_simulated {w : World I M} (hw : Consistent w) : Simulated w .groups :=
  .of_ok (a := .groups w.plain.waiting) rfl hw rfl (.refl _ w)

theorem len_simulated {w : World I M} (hw : Consistent w) : Simulated w .len := by
  refine .of_ok (a := .number w.plain.waiting.length) ?_ hw rfl (.refl _ w)
  rw [hw.length_waiting]
  rfl

/-- Every call of the queue is a call of the reference queue. -/
theorem step_simulated {w : World I M} (hw : Consistent w) (op : Op I M) : Simulated w op := by
  cases op with
  | admitGroup groupId members => exact admit_simulated hw groupId members
  | markReady member => exact markReady_simulated hw member
  | markGroupReady groupId => exact markGroupReady_simulated hw groupId
  | groupOf member => exact groupOf_simulated hw member
  | cancel groupId => exact cancel_simulated hw groupId
  | clear => exact clear_simulated hw
  | peek => exact peek_simulated hw
  | release => exact release_simulated hw
  | releaseAll => exact releaseAll_simulated hw
  | groups => exact groups_simulated hw
  | len => exact len_simulated hw
  | contains member => exact contains_simulated hw member
  | groupMarkReady group member => exact groupMarkReady_simulated hw group member

theorem step_consistent {w : World I M} (hw : Consistent w) (op : Op I M) :
    Consistent (step w op).2 := (step_simulated hw op).consistent

theorem step_plain {w : World I M} (hw : Consistent w) (op : Op I M) :
    ((step w op).1, (step w op).2.plain) = w.plain.step op := (step_simulated hw op).plain

/-- A queue with all its indexes stands for a reference queue. -/
def Refines (w : World I M) (q : PlainQueue I M) : Prop := Consistent w ∧ w.plain = q

theorem step_refines : Simulation (step (I := I) (M := M)) PlainQueue.step Refines where
  answer := by
    rintro w _ ⟨hw, rfl⟩ op
    rw [← step_plain hw]
  next := by
    rintro w _ ⟨hw, rfl⟩ op
    exact ⟨step_consistent hw op, by rw [← step_plain hw]⟩

theorem init_refines (strictOrder : Bool) :
    Refines (World.init strictOrder : World I M) (PlainQueue.init strictOrder) :=
  ⟨init_consistent strictOrder, rfl⟩

theorem entries_waiting {w : World I M} (hw : Registered w) :
    w.plain.waiting.map (fun e => (e.groupId, e.handle)) =
      w.groups.entries.map fun e => (Value.hashable e.1, e.2) := by
  rw [World.plain, Dict.values, List.filterMap_map, List.map_filterMap, ← List.filterMap_eq_map]
  refine List.filterMap_congr fun e he => ?_
  obtain ⟨g, hg, hgid⟩ := hw.bearing e.1 e.2 (Dict.get?_eq_some_iff.mpr he)
  have hl : w.look e.2 = some (g.entry e.2) := World.look_eq_some.mpr ⟨g, hg, rfl⟩
  rw [Function.comp_apply, hl, Option.map_some, Function.comp_apply, ← hgid]
  rfl

omit [DecidableEq I] in
theorem shown_injective :
    Function.Injective fun e : I × Handle => (Value.hashable e.1, e.2) := by
  rintro ⟨i, h⟩ ⟨i', h'⟩ he
  rw [Prod.mk.injEq, Value.hashable.injEq] at he
  exact Prod.ext he.1 he.2

theorem groups_eq_of_waiting_eq {w w' : World I M} (hw : Registered w) (hw' : Registered w')
    (h : w.plain.waiting = w'.plain.waiting) : w.groups = w'.groups := by
  refine Dict.ext ?_
  refine List.map_injective_iff.mpr shown_injective ?_
  rw [← entries_waiting hw, ← entries_waiting hw', h]

omit [DecidableEq I] [DecidableEq M] in
theorem Group.ext_of_entry {g g' : Group I M} {h : Handle} (he : g.entry h = g'.entry h)
    (hs : g.sequence = g'.sequence) (hc : g.onReady = g'.onReady) : g = g' := by
  have hr : g.ready = g'.ready := Dict.ext (congrArg Entry.flags he)
  apply Group.ext
  · exact congrArg Entry.groupId he
  · rw [← g.keys_ready, ← g'.keys_ready, hr]
  · exact hr
  · rw [g.count_ready, g'.count_ready, hr]
  · exact hs
  · exact hc

theorem object_eq_of_look_eq {w w' : World I M} (hw : Consistent w) (hw' : Consistent w')
    (hpolicy : w.strictOrder = w'.strictOrder) {h : Handle}
    (hwaiting : h ∈ w.groups.values ↔ h ∈ w'.groups.values) (hlook : w.look h = w'.look h) :
    w.objects[h]? = w'.objects[h]? := by
  have hcallback : w.onReadyCallback = w'.onReadyCallback := by
    rw [hw.callback, hw'.callback, hpolicy]
  rw [World.look, World.look] at hlook
  cases hg : w.objects[h]? with
  | none =>
    rw [hg, Option.map_none, eq_comm, Option.map_eq_none_iff] at hlook
    exact hlook.symm
  | some g =>
    rw [hg, Option.map_some, eq_comm, Option.map_eq_some_iff] at hlook
    obtain ⟨g', hg', he⟩ := hlook
    rw [hg']
    refine congrArg some (Group.ext_of_entry he.symm ?_ ?_)
    · rw [hw.numbered h g hg, hw'.numbered h g' hg']
    · rw [hw.carried h g hg, hw'.carried h g' hg', hcallback]
      simp only [hwaiting]

theorem objects_eq_of_plain_eq {w w' : World I M} (hw : Consistent w) (hw' : Consistent w')
    (hp : w.plain = w'.plain) : w.objects = w'.objects := by
  have hgroups := groups_eq_of_waiting_eq hw.toRegistered hw'.toRegistered (by rw [hp])
  refine List.ext_getElem? fun h => ?_
  refine object_eq_of_look_eq hw hw' (congrArg PlainQueue.strictOrder hp) (by rw [hgroups]) ?_
  rw [← hw.plain_look, ← hw'.plain_look, hp]

/-- In every run, under both policies, the queue answers each call as the reference queue,
which scans its list, answers it. -/
theorem answers_eq_plain_answers (strictOrder : Bool) (ops : List (Op I M)) :
    answers step (World.init strictOrder) ops =
      answers PlainQueue.step (PlainQueue.init strictOrder) ops :=
  step_refines.answers (init_refines strictOrder) ops

theorem consistent_of_reachable {strictOrder : Bool} {w : World I M}
    (hw : Reachable step (World.init strictOrder) w) : Consistent w := by
  obtain ⟨ops, rfl⟩ := hw
  exact (step_refines.final (init_refines strictOrder) ops).1

end Tito
