import Tito.Printing
import Tito.ReleaseAll
import Tito.Signals

namespace Tito

open Lib Lib.Mealy Lib.Search

variable {I M : Type}

theorem World.readyAmong_eq (w : World I M) :
    w.readyAmong w.groups.values = w.plain.waiting.countP Entry.ready := by
  have hready : ∀ h, (w.look h).map Entry.ready = w.objects[h]?.map Group.isReady := by
    intro h
    rw [World.look, Option.map_map]
    exact congrArg (Option.map · w.objects[h]?) (funext fun g => g.ready_entry h)
  rw [World.plain, List.countP_filterMap, World.readyAmong]
  simp only [hready]

variable [DecidableEq M]

theorem Group.mem_waitingMembers (g : Group I M) (m : M) :
    m ∈ g.waitingMembers ↔ (m, false) ∈ g.ready.entries := by
  rw [Group.waitingMembers, List.mem_filter, decide_eq_true_iff, Dict.get?_eq_some_iff,
    ← g.keys_ready]
  exact and_iff_right_of_imp fun hm => List.mem_map_of_mem hm

theorem Group.readyCount_add_waiting (g : Group I M) :
    g.readyCount + g.waitingMembers.length = g.members.length := by
  have hwaiting : g.waitingMembers =
      g.members.filter fun m => !decide (g.ready.get? m = some true) := by
    refine List.filter_congr fun m hm => ?_
    obtain ⟨b, hb⟩ := Dict.mem_keys_iff.mp (g.keys_ready.symm ▸ hm)
    cases b <;> simp [hb]
  rw [g.readyCount_eq, hwaiting]
  exact (List.length_eq_length_filter_add _).symm

theorem Group.ready_marked (g : Group I M) (h : Handle) (l : List (Handle × M)) :
    ((g.entry h).marked l).ready = true ↔ ∀ m ∈ g.waitingMembers, (h, m) ∈ l := by
  rw [Entry.ready, Entry.marked, List.all_map, List.all_eq_true]
  constructor
  · intro hall m hm
    have hf := hall (m, false) ((g.mem_waitingMembers m).mp hm)
    by_contra hl
    simp [hl, Group.entry] at hf
  · rintro hall ⟨m, b⟩ hf
    cases b with
    | true => by_cases hl : (h, m) ∈ l <;> simp [hl, Group.entry]
    | false =>
      have hl := hall m ((g.mem_waitingMembers m).mpr hf)
      simp [hl, Group.entry]

namespace PlainQueue

variable {q : PlainQueue I M}

/-- The line shows nothing, and one of its groups is all that marks can change: then that group
shows once its flags are up. -/
theorem Valid.peek_marks (hq : q.Valid) (hnone : q.peek = none) {e : Entry I M}
    (he : e ∈ q.waiting) (hhead : q.strictOrder = true → q.waiting.head? = some e)
    {l : List (Handle × M)} (hl : ∀ p ∈ l, p.1 = e.handle) :
    (q.marks l).peek = if (e.marked l).ready then some (e.marked l) else none := by
  cases hs : q.strictOrder with
  | true =>
    simp only [peek, PlainQueue.marks, hs, if_true, List.head?_map, hhead hs, Option.map_some]
    rfl
  | false =>
    simp only [peek, hs, Bool.false_eq_true, if_false] at hnone
    simp only [peek, PlainQueue.marks, hs, Bool.false_eq_true, if_false]
    have hothers : ∀ a ∈ q.waiting, a ≠ e → a.marked l = a := by
      intro a ha hne
      have hhandle : ∀ f : M × Bool, (a.handle, f.1) ∉ l := fun f hf =>
        hne (hq.handle_unique ha he (hl _ hf))
      simp [Entry.marked, hhandle]
    have honly : ∀ a ∈ q.waiting, (Entry.ready ∘ Entry.marked l) a = true → a = e := by
      intro a ha hready
      by_contra hne
      rw [Function.comp_apply, hothers a ha hne] at hready
      exact List.find?_eq_none.mp hnone a ha hready
    rw [List.find?_map]
    split
    · rename_i hready
      rw [find?_eq_some_of_unique he hready honly]
      rfl
    · rename_i hready
      rw [List.find?_eq_none.mpr]
      · rfl
      · intro a ha ha'
        obtain rfl := honly a ha ha'
        exact hready ha'

end PlainQueue

variable [DecidableEq I]

theorem release_none_iff_peek {w : World I M} (hw : Consistent w) :
    (step w .release).1 = .ok .none ↔ w.plain.peek = none := by
  rw [show (step w .release).1 = PlainQueue.shown w.plain.peek from
    congrArg Prod.fst (step_plain hw .release)]
  cases w.plain.peek <;> simp [PlainQueue.shown]

/-- After marks of some members of one group, a queue that released nothing releases that group
if they are all that the group waited for, and nothing otherwise. -/
theorem release_after_marks {w : World I M} (hw : Consistent w) {h : Handle} {g : Group I M}
    (hg : w.Waits h g) (hhead : w.strictOrder = true → w.groups.values.head? = some h)
    (hnone : (step w .release).1 = .ok .none) {ms : List M} (hms : ∀ m ∈ ms, m ∈ g.members) :
    let w' := final step w (ms.map fun m => .markReady (.hashable m))
    if ∀ m ∈ g.waitingMembers, m ∈ ms then
      ∃ e, (step w' .release).1 = .ok (.group e) ∧ e.handle = h
    else (step w' .release).1 = .ok .none := by
  intro w'
  have hlook : w.look h = some (g.entry h) := World.look_eq_some.mpr ⟨g, hg.1, rfl⟩
  have hmem : g.entry h ∈ w.plain.waiting := World.mem_waiting.mpr ⟨hg.2, hlook⟩
  have hsignals : ∀ s ∈ ms.map Signal.member, ∃ p, Signal.Marks (I := I) s w.plain p := by
    intro s hs
    obtain ⟨m, hm, rfl⟩ := List.mem_map.mp hs
    exact ⟨(h, m), g.entry h, hmem, rfl, by rw [g.members_entry]; exact hms m hm, rfl⟩
  obtain ⟨l, hl, hfinal⟩ := Signal.final_eq_marks hw.plain_valid (ms.map Signal.member) hsignals
  have hmarks : ∀ p, p ∈ l ↔ p.1 = h ∧ p.2 ∈ ms := by
    intro p
    rw [hl]
    constructor
    · rintro ⟨s, hs, e, he, hhandle, hm, hk⟩
      obtain ⟨m, hms', rfl⟩ := List.mem_map.mp hs
      obtain rfl : p.2 = m := hk
      have hin : p.2 ∈ (g.entry h).members := by
        rw [g.members_entry]
        exact hms _ hms'
      rw [← hhandle, hw.plain_valid.member_unique e he _ hmem _ hm hin]
      exact ⟨rfl, hms'⟩
    · rintro ⟨hh, hm⟩
      refine ⟨.member p.2, List.mem_map_of_mem hm, g.entry h, hmem, hh.symm, ?_, rfl⟩
      rw [g.members_entry]
      exact hms _ hm
  have hall : ((g.entry h).marked l).ready = true ↔ ∀ m ∈ g.waitingMembers, m ∈ ms := by
    rw [g.ready_marked]
    refine forall₂_congr fun m _ => ?_
    rw [hmarks]
    exact and_iff_right rfl
  have hhead' : w.plain.strictOrder = true → w.plain.waiting.head? = some (g.entry h) := by
    intro hs
    obtain ⟨rest, hvalues⟩ := List.head?_eq_some_iff.mp (hhead hs)
    rw [World.plain, hvalues, List.filterMap_cons_some hlook]
    rfl
  have hpeek := hw.plain_valid.peek_marks ((release_none_iff_peek hw).mp hnone) hmem hhead'
    fun p hp => ((hmarks p).mp hp).1
  have hops : (ms.map Signal.member).map Signal.op =
      ms.map fun m => (.markReady (.hashable m) : Op I M) := List.map_map
  obtain ⟨hw', hplain⟩ := final_plain hw (ms.map fun m => .markReady (.hashable m))
  rw [← hops, hfinal] at hplain
  have hrelease : (step w' .release).1 =
      PlainQueue.shown
        (if ((g.entry h).marked l).ready then some ((g.entry h).marked l) else none) := by
    rw [← hpeek, ← hplain, hops]
    exact congrArg Prod.fst (step_plain hw' .release)
  rw [hrelease]
  split
  · rename_i hsub
    rw [if_pos (hall.mpr hsub)]
    exact ⟨_, rfl, rfl⟩
  · rename_i hsub
    rw [if_neg (mt hall.mp hsub)]
    rfl

theorem release_none_iff_waiting {w : World I M} (hw : Consistent w) (hs : w.strictOrder = true) :
    (step w .release).1 = .ok .none ↔ ∀ h, w.groups.values.head? = some h →
      ∃ count waiting, (groupRepr h).run w = .ok (count, waiting) w ∧ waiting ≠ [] := by
  rw [release_none_iff hw hs]
  constructor
  · rintro (hempty | ⟨h, g, hh, hg, m, hm, hflag⟩) k hk
    · rw [hempty] at hk
      cases hk
    · obtain rfl := Option.some.inj (hh.symm.trans hk)
      refine ⟨_, _, groupRepr_run hg, ?_⟩
      exact List.ne_nil_of_mem (List.mem_filter.mpr ⟨hm, decide_eq_true hflag⟩)
  · intro hall
    cases hv : w.groups.values with
    | nil => exact Or.inl rfl
    | cons h rest =>
      obtain ⟨count, waiting, hrun, hne⟩ := hall h (by rw [hv]; rfl)
      obtain ⟨_, g, _, hg, _⟩ := hw.waiting (h := h) (by simp [hv])
      rw [groupRepr_run hg] at hrun
      cases hrun
      obtain ⟨m, hm⟩ := List.exists_mem_of_ne_nil _ hne
      obtain ⟨hmem, hflag⟩ := List.mem_filter.mp hm
      exact Or.inr ⟨h, g, rfl, hg, m, hmem, of_decide_eq_true hflag⟩

theorem release_none_iff_ready {w : World I M} (hw : Consistent w) (hs : w.strictOrder = false) :
    (step w .release).1 = .ok .none ↔ w.readyAmong w.groups.values = 0 := by
  have hplain : w.plain.strictOrder = false := hs
  rw [release_none_iff_peek hw, w.readyAmong_eq, PlainQueue.peek, hplain]
  simp only [Bool.false_eq_true, if_false, List.find?_eq_none, List.countP_eq_zero]

omit [DecidableEq I] [DecidableEq M] in
theorem length_departing (strictOrder : Bool) (waiting : List (Entry I M)) :
    (departing strictOrder waiting).length ≤ waiting.countP Entry.ready ∧
      (strictOrder = false →
        (departing strictOrder waiting).length = waiting.countP Entry.ready) := by
  cases strictOrder with
  | false =>
    have hlen : (departing false waiting).length = waiting.countP Entry.ready :=
      List.countP_eq_length_filter.symm
    exact ⟨Nat.le_of_eq hlen, fun _ => hlen⟩
  | true =>
    refine ⟨?_, fun h => absurd h (by simp)⟩
    have hall : (waiting.takeWhile Entry.ready).countP Entry.ready =
        (waiting.takeWhile Entry.ready).length := List.countP_eq_length.mpr fun e he =>
      List.all_eq_true.mp (List.all_takeWhile) e he
    have hsub := (List.takeWhile_sublist (l := waiting) Entry.ready).countP_le (p := Entry.ready)
    exact hall.symm.trans_le hsub

/-- Printing a queue or a group tells what the queue waits for. The text of a queue shows how many
groups wait and how many of them are complete, which is how many `release_all` would return, or
under strict order no less. With the members that the texts of the groups show as waited on this
says whether `release` returns `None`; and if it does, marks of members of the group that is next,
or under relaxed order of any group, make it depart exactly when they leave out nobody that it
waits for. -/
theorem printing_explains (reprI : Value I → String) (reprM : M → String) (strictOrder : Bool)
    (ops : List (Op I M)) :
    let w := final step (World.init strictOrder) ops
    let ready := w.readyAmong w.groups.values
    queueRepr.run w = .ok (w.groups.length, ready) w ∧
      queueStr.run w = .ok (w.text (w.groups.length, ready)) w ∧
      (∃ es, (step w .releaseAll).1 = .ok (.groups es) ∧ es.length ≤ ready ∧
        (strictOrder = false → es.length = ready)) ∧
      ((step w .release).1 = .ok .none ↔
        if strictOrder then ∀ h, w.groups.values.head? = some h →
          ∃ count waiting, (groupRepr h).run w = .ok (count, waiting) w ∧ waiting ≠ []
        else ready = 0) ∧
      ∀ h ∈ w.groups.values, ∃ g count waiting, w.objects[h]? = some g ∧
        (groupRepr h).run w = .ok (count, waiting) w ∧
        (groupStr reprI reprM h).run w = .ok (g.text reprI reprM (count, waiting)) w ∧
        (∀ m ∈ waiting, (g.text reprI reprM (count, waiting)).contains (reprM m) = true) ∧
        count + waiting.length = g.members.length ∧
        ((strictOrder = true → w.groups.values.head? = some h) →
          (step w .release).1 = .ok .none →
          ∀ ms : List M, (∀ m ∈ ms, m ∈ g.members) →
          let w' := final step w (ms.map fun m => .markReady (.hashable m))
          if ∀ m ∈ waiting, m ∈ ms then
            ∃ e, (step w' .release).1 = .ok (.group e) ∧ e.handle = h
          else (step w' .release).1 = .ok .none) := by
  intro w ready
  have hw : Consistent w := consistent_of_reachable ⟨ops, rfl⟩
  have hs : w.strictOrder = strictOrder := final_strictOrder strictOrder ops
  refine ⟨queueRepr_run hw.toRegistered, queueStr_run hw.toRegistered, ?_, ?_, ?_⟩
  · obtain ⟨hout, -⟩ := hw.plain_valid.releaseUpTo_eq (Nat.le_refl w.plain.waiting.length)
    rw [show w.plain.strictOrder = strictOrder from hs] at hout
    have hstep := congrArg Prod.fst (step_plain hw .releaseAll)
    refine ⟨departing strictOrder w.plain.waiting, hstep.trans ?_, ?_⟩
    · exact congrArg (fun es => Except.ok (Answer.groups es)) hout
    · rw [show ready = _ from w.readyAmong_eq]
      exact length_departing strictOrder w.plain.waiting
  · cases strictOrder with
    | true => exact release_none_iff_waiting hw hs
    | false => exact release_none_iff_ready hw hs
  · intro h hh
    obtain ⟨_, g, _, hg, _⟩ := hw.waiting hh
    refine ⟨g, g.readyCount, g.waitingMembers, hg, groupRepr_run hg, groupStr_run hg, ?_, ?_, ?_⟩
    · exact fun m hm => g.text_contains hm g.readyCount
    · exact g.readyCount_add_waiting
    · intro hhead hnone ms hms
      exact release_after_marks hw ⟨hg, hh⟩ (fun h => hhead (hs.symm.trans h)) hnone hms

end Tito
