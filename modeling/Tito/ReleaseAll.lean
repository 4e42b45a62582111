import Tito.Strict

namespace Tito

open Lib Lib.Mealy

variable {I M : Type}

/-- The groups of a line that can depart now: the ready ones that no unready group holds up, or
all the ready ones. -/
def departing (strictOrder : Bool) (waiting : List (Entry I M)) : List (Entry I M) :=
  if strictOrder then waiting.takeWhile Entry.ready else waiting.filter Entry.ready

def remaining (strictOrder : Bool) (waiting : List (Entry I M)) : List (Entry I M) :=
  if strictOrder then waiting.dropWhile Entry.ready else waiting.filter fun e => !e.ready

namespace PlainQueue

variable {q : PlainQueue I M}

theorem departing_of_peek_none (h : q.peek = none) :
    departing q.strictOrder q.waiting = [] ∧ remaining q.strictOrder q.waiting = q.waiting := by
  rw [peek] at h
  rw [departing, remaining]
  split at h
  · rename_i hs
    rw [if_pos hs, if_pos hs]
    cases hw : q.waiting with
    | nil => exact ⟨rfl, rfl⟩
    | cons e rest =>
      rw [hw, List.head?_cons, Option.filter_eq_none_iff] at h
      have hr : ¬ e.ready = true := h e rfl
      exact ⟨List.takeWhile_cons_of_neg hr, List.dropWhile_cons_of_neg hr⟩
  · rename_i hs
    rw [if_neg hs, if_neg hs]
    have hr := List.find?_eq_none.mp h
    exact ⟨List.filter_eq_nil_iff.mpr hr, List.filter_eq_self.mpr fun e he => by simpa using hr e he⟩

theorem Valid.departing_of_peek_some (hq : q.Valid) {e : Entry I M} (h : q.peek = some e) :
    departing q.strictOrder q.waiting = e :: departing q.strictOrder (q.remove e).waiting ∧
      remaining q.strictOrder q.waiting = remaining q.strictOrder (q.remove e).waiting := by
  obtain ⟨-, hr⟩ := peek_mem h
  cases hs : q.strictOrder with
  | true =>
    obtain ⟨rest, hw⟩ := peek_strict hs h
    rw [hq.remove_head hw, hw]
    exact ⟨List.takeWhile_cons_of_pos hr, List.dropWhile_cons_of_pos hr⟩
  | false =>
    have hfind : q.waiting.find? Entry.ready = some e := by
      rw [peek, hs] at h
      exact h
    obtain ⟨-, before, after, hw, hbefore⟩ := List.find?_eq_some_iff_append.mp hfind
    have hnone : before.filter Entry.ready = [] :=
      List.filter_eq_nil_iff.mpr fun a ha => by simpa using hbefore a ha
    rw [hq.waiting_remove hw, hw]
    simp [departing, remaining, hnone, hr]

/-- Releases in a row take out what can depart, and then nothing can. -/
theorem Valid.releaseUpTo_eq (hq : q.Valid) {n : Nat} (hn : q.waiting.length ≤ n) :
    (q.releaseUpTo n).1 = departing q.strictOrder q.waiting ∧
      (q.releaseUpTo n).2.waiting = remaining q.strictOrder q.waiting ∧
      (q.releaseUpTo n).2.peek = none := by
  induction n generalizing q with
  | zero =>
    have hnone : q.peek = none := by
      refine Option.eq_none_iff_forall_ne_some.mpr fun e he => ?_
      have hlt := length_remove_lt (peek_mem he).1
      omega
    obtain ⟨hd, hr⟩ := departing_of_peek_none hnone
    exact ⟨hd.symm, hr.symm, hnone⟩
  | succ n ih =>
    rw [releaseUpTo]
    cases hp : q.peek with
    | none =>
      obtain ⟨hd, hr⟩ := departing_of_peek_none hp
      exact ⟨hd.symm, hr.symm, hp⟩
    | some e =>
      have hlt := length_remove_lt (peek_mem hp).1
      obtain ⟨hd, hr⟩ := hq.departing_of_peek_some hp
      obtain ⟨hout, hleft, hnone⟩ := ih (hq.remove e) (by omega)
      refine ⟨?_, hleft.trans hr.symm, hnone⟩
      rw [hd]
      exact congrArg (e :: ·) hout

end PlainQueue

variable [DecidableEq I] [DecidableEq M]

theorem memberIndex_iff_waiting {w : World I M} (hw : Consistent w) (m : M) (id : I) :
    w.memberIndex.get? m = some id ↔
      ∃ e ∈ w.plain.waiting, m ∈ e.members ∧ e.groupId = .hashable id := by
  rw [← plain_groupOf_id hw.toRegistered, Option.bind_eq_some_iff]
  constructor
  · rintro ⟨e, he, hid⟩
    refine ⟨e, List.mem_of_find?_eq_some he, by simpa using List.find?_some he, ?_⟩
    cases hg : e.groupId with
    | unhashable t =>
      rw [hg] at hid
      cases hid
    | hashable i =>
      rw [hg] at hid
      rw [Option.some.inj hid]
  · rintro ⟨e, he, hm, hid⟩
    exact ⟨e, hw.plain_valid.groupOf_eq he hm, by rw [hid]; rfl⟩

/-- In every reachable state `release_all` ends and returns what can depart: the longest prefix of
complete groups of a strict queue, and all complete groups of a relaxed one. The other groups wait
on in their order with their flags, the member index is theirs alone, and nothing more can be
released. -/
theorem releaseAll_releases_departing (strictOrder : Bool) (ops : List (Op I M)) :
    let w := final step (World.init strictOrder) ops
    let w' := (step w .releaseAll).2
    ∃ waiting : List (Entry I M), (step w .groups).1 = .ok (.groups waiting) ∧
      (step w .releaseAll).1 = .ok (.groups (departing strictOrder waiting)) ∧
      (step w' .groups).1 = .ok (.groups (remaining strictOrder waiting)) ∧
      (∀ m id, w'.memberIndex.get? m = some id ↔
        ∃ e ∈ remaining strictOrder waiting, m ∈ e.members ∧ e.groupId = .hashable id) ∧
      (step w' .release).1 = .ok .none := by
  intro w w'
  have hw : Consistent w := consistent_of_reachable ⟨ops, rfl⟩
  have hw' : Consistent w' := step_consistent hw .releaseAll
  have hs : w.plain.strictOrder = strictOrder := final_strictOrder strictOrder ops
  obtain ⟨hout, hleft, hnone⟩ := hw.plain_valid.releaseUpTo_eq (Nat.le_refl w.plain.waiting.length)
  rw [hs] at hout hleft
  have hstep := step_plain hw .releaseAll
  have hplain : w'.plain = (w.plain.releaseUpTo w.plain.waiting.length).2 := congrArg Prod.snd hstep
  rw [← hplain] at hleft hnone
  refine ⟨w.plain.waiting, congrArg Prod.fst (step_plain hw .groups), ?_, ?_, fun m id => ?_, ?_⟩
  · rw [← hout]
    exact congrArg Prod.fst hstep
  · rw [← hleft]
    exact congrArg Prod.fst (step_plain hw' .groups)
  · rw [← hleft]
    exact memberIndex_iff_waiting hw' m id
  · have hrelease : (step w' .release).1 = PlainQueue.shown w'.plain.peek :=
      congrArg Prod.fst (step_plain hw' .release)
    rw [hrelease, hnone]
    rfl

end Tito
