import Tito.BulkCancel
import Tito.ReleaseAll

namespace Tito

open Lib Lib.Mealy

variable {I M : Type}

def Op.departs : Op I M → Bool
  | .cancel _ => true
  | .release => true
  | .releaseAll => true
  | _ => false

namespace PlainQueue

variable {q : PlainQueue I M}

theorem Valid.waiting_releaseUpTo (hq : q.Valid) (n : Nat) :
    ((q.releaseUpTo n).2.waiting = q.waiting.filter fun a =>
      decide (a.handle ∉ (q.releaseUpTo n).1.map Entry.handle)) ∧
      ∀ h, (q.releaseUpTo n).2.look h = q.look h := by
  induction n generalizing q with
  | zero => exact ⟨(List.filter_eq_self.mpr fun _ _ => by simp [releaseUpTo]).symm, fun _ => rfl⟩
  | succ n ih =>
    rw [releaseUpTo]
    cases hp : q.peek with
    | none => exact ⟨(List.filter_eq_self.mpr fun _ _ => by simp).symm, fun _ => rfl⟩
    | some e =>
      obtain ⟨hwaiting, hlook⟩ := ih (hq.remove e)
      refine ⟨?_, fun h => (hlook h).trans (hq.look_remove (peek_mem hp).1 h)⟩
      refine hwaiting.trans ((List.filter_filter ..).trans (List.filter_congr fun a _ => ?_))
      simp [Bool.and_comm]

variable [DecidableEq I] [DecidableEq M]

theorem Valid.step_departs (hq : q.Valid) {op : Op I M} (hop : op.departs = true) :
    ((q.step op).2.waiting = q.waiting.filter fun a =>
      decide (a.handle ∉ (handedOut op (q.step op).1).map Entry.handle)) ∧
      (∀ h, (q.step op).2.look h = q.look h) ∧ admitted op (q.step op).1 = [] ∧
      ∀ e, (q.step op).1 = .error e → ∃ t, e = .tito t := by
  have hnone : q.waiting = q.waiting.filter fun a => decide (a.handle ∉ ([] : List Handle)) :=
    (List.filter_eq_self.mpr fun _ _ => by simp).symm
  have hone : ∀ e, (q.remove e).waiting = q.waiting.filter fun a =>
      decide (a.handle ∉ [e].map Entry.handle) := by
    intro e
    exact List.filter_congr fun a _ => by simp
  have hok : ∀ (a : Answer I M) (e : PyError I M), (.ok a : Outcome I M) = .error e →
      ∃ t, e = .tito t := by
    intro a e he
    cases he
  cases op with
  | cancel id =>
    cases hf : q.find id with
    | none =>
      have hstep : q.step (.cancel id) = (.error (.tito (.groupNotQueued id)), q) := by
        rw [step, cancel, hf]
      rw [hstep]
      exact ⟨hnone, fun _ => rfl, rfl, fun e he => ⟨_, (Except.error.inj he).symm⟩⟩
    | some e =>
      have hstep : q.step (.cancel id) = (.ok (.group e), q.remove e) := by
        rw [step, cancel, hf]
      rw [hstep]
      exact ⟨hone e, hq.look_remove (find_mem hf).1, rfl, hok _⟩
  | release =>
    cases hp : q.peek with
    | none =>
      have hstep : q.step .release = (.ok .none, q) := by rw [step, hp]; rfl
      rw [hstep]
      exact ⟨hnone, fun _ => rfl, rfl, hok _⟩
    | some e =>
      have hstep : q.step .release = (.ok (.group e), q.remove e) := by rw [step, hp]; rfl
      rw [hstep]
      exact ⟨hone e, hq.look_remove (peek_mem hp).1, rfl, hok _⟩
  | releaseAll =>
    obtain ⟨hwaiting, hlook⟩ := hq.waiting_releaseUpTo q.waiting.length
    exact ⟨hwaiting, hlook, rfl, hok _⟩
  | _ => cases hop

end PlainQueue

variable [DecidableEq I] [DecidableEq M]

/-- The groups that a call returns to its caller for good. -/
def returned (w : World I M) (op : Op I M) : List Handle :=
  (handedOut op (step w op).1).map Entry.handle

/-- A call that raises nothing but `TitoError`, takes exactly the groups it returns out of every
index, and leaves every other group as it was. -/
structure CleanExit (w : World I M) (op : Op I M) : Prop where
  raises : ∀ e, (step w op).1 = .error e → ∃ t, e = .tito t
  waited : ∀ h ∈ returned w op, h ∈ w.groups.values
  once : (returned w op).Nodup
  groups : (step w op).2.groups.entries =
    w.groups.entries.filter fun e => decide (e.2 ∉ returned w op)
  members : ∀ m id, (step w op).2.memberIndex.get? m = some id ↔
    w.memberIndex.get? m = some id ∧
      ∀ (h : Handle) g, h ∈ returned w op → w.objects[h]? = some g → m ∉ g.members
  ready : ∀ s h, (step w op).2.readyGroups.get? s = some h ↔
    w.readyGroups.get? s = some h ∧ h ∉ returned w op
  heap : ∀ s ∈ (step w op).2.readyGroups.keys, (step w op).2.readyHeap.count s = 1
  others : ∀ h : Handle, h ∉ returned w op → (step w op).2.objects[h]? = w.objects[h]?

theorem returned_waiting {w : World I M} (hw : Consistent w) {op : Op I M}
    (hop : op.departs = true) :
    (returned w op).Nodup ∧ (∀ h ∈ returned w op, h ∈ w.groups.values) ∧
      ((step w op).2.plain.waiting = w.plain.waiting.filter fun a =>
        decide (a.handle ∉ returned w op)) ∧
      (∀ h, (step w op).2.look h = w.look h) ∧
      ∀ e, (step w op).1 = .error e → ∃ t, e = .tito t := by
  have hplain := step_plain hw op
  have hanswer : (step w op).1 = (w.plain.step op).1 := congrArg Prod.fst hplain
  have hnext : (step w op).2.plain = (w.plain.step op).2 := congrArg Prod.snd hplain
  obtain ⟨hwaiting, hlook, hnone, hraises⟩ := hw.plain_valid.step_departs hop
  have hcons := step_conserved hw op
  have hperm := hcons.handles
  rw [hanswer, hnone, List.length_nil, List.range'_zero, List.append_nil, ← hanswer,
    hw.map_handle_waiting] at hperm
  refine ⟨?_, fun h hh => hperm.mem_iff.mp (List.mem_append_left _ hh), ?_, fun h => ?_, ?_⟩
  · exact (List.nodup_append.mp (hcons.handles_nodup hw.plain_valid)).1
  · rw [hnext, hwaiting, returned, hanswer]
  · have hv := (step_consistent hw op).plain_look h
    rw [← hv, hnext, hlook, hw.plain_look]
  · rw [hanswer]
    exact hraises

theorem entries_of_waiting {w w' : World I M} (hw : Registered w) (hw' : Registered w')
    {hs : List Handle}
    (h : w'.plain.waiting = w.plain.waiting.filter fun a => decide (a.handle ∉ hs)) :
    w'.groups.entries = w.groups.entries.filter fun e => decide (e.2 ∉ hs) := by
  refine List.map_injective_iff.mpr shown_injective ?_
  rw [← entries_waiting hw', h]
  refine (List.filter_map (p := fun e : Value I × Handle => decide (e.2 ∉ hs))).symm.trans ?_
  rw [entries_waiting hw, List.filter_map]
  rfl

/-- Without any interference every departure is clean. -/
theorem cleanExit_of_consistent {w : World I M} (hw : Consistent w) {op : Op I M}
    (hop : op.departs = true) : CleanExit w op := by
  have hw' := step_consistent hw op
  obtain ⟨honce, hwaited, hwaiting, hlook, hraises⟩ := returned_waiting hw hop
  have hpolicy : (step w op).2.strictOrder = w.strictOrder := (step_conserved hw op).policy
  have hvalues : ∀ h, h ∈ (step w op).2.groups.values ↔
      h ∈ w.groups.values ∧ h ∉ returned w op := by
    intro h
    rw [← hw'.map_handle_waiting, ← hw.map_handle_waiting, hwaiting]
    simp only [List.mem_map, List.mem_filter, decide_eq_true_eq]
    constructor
    · rintro ⟨a, ⟨ha, hout⟩, rfl⟩
      exact ⟨⟨a, ha, rfl⟩, hout⟩
    · rintro ⟨⟨a, ha, rfl⟩, hout⟩
      exact ⟨a, ⟨ha, hout⟩, rfl⟩
  have hothers : ∀ h : Handle, h ∉ returned w op →
      (step w op).2.objects[h]? = w.objects[h]? := fun h hh =>
    object_eq_of_look_eq hw' hw hpolicy ((hvalues h).trans (and_iff_left hh)) (hlook h)
  refine ⟨hraises, hwaited, honce, entries_of_waiting hw.toRegistered hw'.toRegistered hwaiting,
    fun m id => ?_, fun s h => ?_, fun s hs => ?_, hothers⟩
  · rw [memberIndex_iff_waiting hw', memberIndex_iff_waiting hw, hwaiting]
    constructor
    · rintro ⟨a, ha, hm, hid⟩
      obtain ⟨ha, hout⟩ := List.mem_filter.mp ha
      refine ⟨⟨a, ha, hm, hid⟩, fun h g hh hg hmg => of_decide_eq_true hout ?_⟩
      have hb : g.entry h ∈ w.plain.waiting :=
        World.mem_waiting.mpr ⟨hwaited h hh, World.look_eq_some.mpr ⟨g, hg, rfl⟩⟩
      rw [hw.plain_valid.member_unique a ha _ hb m hm (by rwa [g.members_entry])]
      exact hh
    · rintro ⟨⟨a, ha, hm, hid⟩, hout⟩
      refine ⟨a, List.mem_filter.mpr ⟨ha, decide_eq_true fun hh => ?_⟩, hm, hid⟩
      obtain ⟨g, hg, hga⟩ := World.look_eq_some.mp (World.mem_waiting.mp ha).2
      rw [← hga, g.members_entry] at hm
      exact hout a.handle g hh hg hm
  · rw [hw'.readied, hw.readied, hpolicy, hvalues]
    constructor
    · rintro ⟨hs, rfl, ⟨hh, hout⟩, hg⟩
      rw [hothers s hout] at hg
      exact ⟨⟨hs, rfl, hh, hg⟩, hout⟩
    · rintro ⟨⟨hs, rfl, hh, hg⟩, hout⟩
      rw [← hothers s hout] at hg
      exact ⟨hs, rfl, ⟨hh, hout⟩, hg⟩
  · exact List.count_eq_one_of_mem hw'.heap_nodup (hw'.heap_holds s hs)

end Tito
