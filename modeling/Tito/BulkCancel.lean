import Tito.Signals

namespace Tito

open Lib Lib.Mealy

variable {I M : Type}

def cancels (ids : List I) : List (Op I M) := ids.map fun id => .cancel (.hashable id)

namespace PlainQueue

variable {q : PlainQueue I M}

theorem Valid.look_remove (hq : q.Valid) {e : Entry I M} (he : e ∈ q.waiting) (h : Handle) :
    (q.remove e).look h = q.look h := by
  by_cases hh : h = e.handle
  · subst hh
    have hgone : (q.remove e).waiting.find? (fun a => decide (a.handle = e.handle)) = none :=
      List.find?_eq_none.mpr fun a ha => by simpa [remove] using (List.mem_filter.mp ha).2
    have hdeparted : (q.remove e).departed e.handle = some e := Function.update_self ..
    rw [hq.look_eq he, look, hgone, hdeparted, Option.none_or]
  · have hfind : (q.remove e).waiting.find? (fun a => decide (a.handle = h)) =
        q.waiting.find? fun a => decide (a.handle = h) := by
      rw [PlainQueue.remove, List.find?_filter]
      congr 1
      funext a
      by_cases ha : a.handle = h <;> simp [ha, hh]
    have hdeparted : (q.remove e).departed h = q.departed h := Function.update_of_ne hh _ _
    rw [look, hfind, hdeparted, look]

theorem Valid.clear_remove (hq : q.Valid) {e : Entry I M} (he : e ∈ q.waiting) :
    (q.remove e).clear = q.clear := by
  apply PlainQueue.ext
  · rfl
  · rfl
  · funext h
    exact hq.look_remove he h
  · rfl

theorem clear_of_empty (h : q.waiting = []) : q.clear = q := by
  apply PlainQueue.ext
  · rfl
  · exact h.symm
  · funext k
    have hlook : q.look k = q.departed k := by
      rw [look, h]
      rfl
    exact hlook
  · rfl

variable [DecidableEq I] [DecidableEq M]

theorem Valid.cancel_eq (hq : q.Valid) {e : Entry I M} (he : e ∈ q.waiting) {id : I}
    (hid : e.groupId = .hashable id) :
    q.step (.cancel (.hashable id)) = (.ok (.group e), q.remove e) := by
  rw [step, cancel, hq.find_eq he hid]

theorem Valid.answers_cancels (hq : q.Valid) {ids : List I}
    (hids : ids.map Value.hashable = q.waiting.map Entry.groupId) :
    answers step q (cancels ids) = q.waiting.map fun e => .ok (.group e) := by
  induction ids generalizing q with
  | nil =>
    rw [List.map_nil, eq_comm, List.map_eq_nil_iff] at hids
    rw [hids]
    rfl
  | cons id ids ih =>
    cases hw : q.waiting with
    | nil =>
      rw [hw] at hids
      cases hids
    | cons e rest =>
      have hrest : (q.remove e).waiting = rest :=
        hq.waiting_remove (show q.waiting = [] ++ e :: rest from hw)
      rw [hw, List.map_cons, List.map_cons, List.cons.injEq] at hids
      have hcancel := hq.cancel_eq (hw ▸ List.mem_cons_self) hids.1.symm
      have hlater := ih (hq.remove e) (by rw [hrest, hids.2])
      rw [cancels, List.map_cons, answers, hcancel, ← cancels]
      dsimp only
      rw [hlater, hrest, List.map_cons]

/-- Cancelling all of the line, in whatever order, is clearing it. -/
theorem Valid.final_cancels (hq : q.Valid) {ids : List I}
    (hids : (ids.map Value.hashable).Perm (q.waiting.map Entry.groupId)) :
    final step q (cancels ids) = q.clear := by
  induction ids generalizing q with
  | nil =>
    rw [List.map_nil, List.nil_perm, List.map_eq_nil_iff] at hids
    exact (clear_of_empty hids).symm
  | cons id ids ih =>
    have hmem : Value.hashable id ∈ q.waiting.map Entry.groupId :=
      hids.mem_iff.mp List.mem_cons_self
    obtain ⟨e, he, hid⟩ := List.mem_map.mp hmem
    have hrest : (ids.map Value.hashable).Perm ((q.remove e).waiting.map Entry.groupId) := by
      have hp := hids.trans ((hq.remove_perm he).map Entry.groupId).symm
      rw [List.map_cons, List.map_cons, hid] at hp
      exact hp.cons_inv
    rw [cancels, List.map_cons, final_cons, hq.cancel_eq he hid, ← cancels, ih (hq.remove e) hrest,
      hq.clear_remove he]

end PlainQueue

variable [DecidableEq I] [DecidableEq M]

theorem groupIds_waiting {w : World I M} (hw : Registered w) :
    w.groups.keys.map Value.hashable = w.plain.waiting.map Entry.groupId := by
  have h := congrArg (List.map Prod.fst) (entries_waiting hw)
  rw [List.map_map, List.map_map] at h
  rw [Dict.keys, List.map_map]
  exact h.symm

/-- `clear` returns the groups that one `cancel` after another returns in order of arrival.
Cancelling all waiting ids, in any order, leaves a queue and group objects that no later calls can
tell from those that `clear` leaves, and the next group admitted gets the same number. -/
theorem clear_eq_cancels (strictOrder : Bool) (ops : List (Op I M)) {ids : List I}
    (hids : ids.Perm (final step (World.init strictOrder) ops).groups.keys) :
    let w := final step (World.init strictOrder) ops
    let cleared := (step w .clear).2
    let cancelled := final step w (cancels ids)
    (∃ es : List (Entry I M), (step w .clear).1 = .ok (.groups es) ∧
      answers step w (cancels w.groups.keys) = es.map fun e => .ok (.group e)) ∧
    cancelled.sequence = cleared.sequence ∧
    ∀ later, answers step cancelled later = answers step cleared later ∧
      (final step cancelled later).objects = (final step cleared later).objects := by
  intro w cleared cancelled
  have hw : Consistent w := consistent_of_reachable ⟨ops, rfl⟩
  have hkeys := groupIds_waiting hw.toRegistered
  obtain ⟨hc, hcp⟩ : Consistent cancelled ∧ cancelled.plain = _ := final_plain hw (cancels ids)
  have hcleared : Consistent cleared := step_consistent hw .clear
  have hclear := step_plain hw .clear
  have hplain : cancelled.plain = cleared.plain := by
    have hperm := hids.map Value.hashable
    rw [hkeys] at hperm
    rw [hcp, hw.plain_valid.final_cancels hperm]
    exact (congrArg Prod.snd hclear).symm
  refine ⟨⟨w.plain.waiting, congrArg Prod.fst hclear, ?_⟩, congrArg PlainQueue.arrivals hplain,
    fun later => ⟨?_, ?_⟩⟩
  · rw [step_refines.answers ⟨hw, rfl⟩]
    exact hw.plain_valid.answers_cancels hkeys
  · exact step_refines.indistinguishable ⟨hc, rfl⟩ ⟨hcleared, hplain.symm⟩ later
  · obtain ⟨hu, hup⟩ := final_plain hc later
    obtain ⟨hv, hvp⟩ := final_plain hcleared later
    exact objects_eq_of_plain_eq hu hv (by rw [hup, hvp, hplain])

/-- Three groups, one of them ready, cancelled from the middle. -/
theorem clear_eq_cancels_middle :
    let ops : List (Op Nat Nat) := [.admitGroup (.hashable 7) (.iterable [.hashable 1]),
      .admitGroup (.hashable 8) (.iterable [.hashable 2]),
      .admitGroup (.hashable 9) (.iterable [.hashable 3]), .markReady (.hashable 2)]
    let w := final step (World.init false) ops
    let cleared := (step w .clear).2
    let cancelled := final step w (cancels [8, 7, 9])
    (∃ es : List (Entry Nat Nat), (step w .clear).1 = .ok (.groups es) ∧
      answers step w (cancels w.groups.keys) = es.map fun e => .ok (.group e)) ∧
    cancelled.sequence = cleared.sequence ∧
    ∀ later, answers step cancelled later = answers step cleared later ∧
      (final step cancelled later).objects = (final step cleared later).objects :=
  clear_eq_cancels false _ (by decide)

end Tito
