import Tito.Consistent
import Tito.Moves
import Tito.Lib.Search

namespace Tito

open Lib Lib.Search

variable {I M : Type}

theorem Group.members_entry (g : Group I M) (h : Handle) : (g.entry h).members = g.members :=
  g.keys_ready

theorem Group.ready_entry (g : Group I M) (h : Handle) : (g.entry h).ready = g.isReady := by
  rw [Bool.eq_iff_iff, g.isReady_iff, Entry.ready, List.all_eq_true]
  rfl

theorem Group.mark_entry [DecidableEq M] {g : Group I M} {m : M} (hm : g.ready.get? m = some false)
    (h : Handle) : (g.flag m hm).entry h = (g.entry h).mark m := by
  have hk : m ∈ g.ready.entries.map Prod.fst := Dict.mem_keys_of_get? hm
  simp only [Group.entry, Group.flag, Entry.mark, Dict.set, dif_pos hk]
  rfl

theorem Group.mark_entry_of_true [DecidableEq M] {g : Group I M} {m : M}
    (hm : g.ready.get? m = some true) (h : Handle) : (g.entry h).mark m = g.entry h := by
  have hf : g.ready.entries.map (fun f => if f.1 = m then (m, true) else f) = g.ready.entries := by
    refine (List.map_congr_left fun f hf => ?_).trans (List.map_id _)
    split
    · rename_i hfm
      have hs : g.ready.get? f.1 = some f.2 := Dict.get?_eq_some_iff.mpr hf
      rw [hfm, hm] at hs
      rw [← hfm, Option.some.inj hs]
      rfl
    · rfl
  simp only [Entry.mark, Group.entry, hf]

theorem World.look_eq_some {w : World I M} {h : Handle} {e : Entry I M} :
    w.look h = some e ↔ ∃ g, w.objects[h]? = some g ∧ g.entry h = e := Option.map_eq_some_iff

theorem World.look_handle {w : World I M} {h : Handle} {e : Entry I M} (he : w.look h = some e) :
    e.handle = h := by
  obtain ⟨g, _, rfl⟩ := World.look_eq_some.mp he
  rfl

/-- The reference queue that a queue with all its indexes stands for. -/
def World.plain (w : World I M) : PlainQueue I M where
  strictOrder := w.strictOrder
  waiting := w.groups.values.filterMap w.look
  departed := fun h => if h ∈ w.groups.values then none else w.look h
  arrivals := w.sequence

theorem World.mem_waiting {w : World I M} {e : Entry I M} :
    e ∈ w.plain.waiting ↔ e.handle ∈ w.groups.values ∧ w.look e.handle = some e := by
  simp only [World.plain, List.mem_filterMap]
  constructor
  · rintro ⟨h, hh, he⟩
    rw [World.look_handle he]
    exact ⟨hh, he⟩
  · exact fun he => ⟨e.handle, he.1, he.2⟩

variable [DecidableEq I] [DecidableEq M]

namespace Registered

variable {w : World I M} (hw : Registered w)

include hw

theorem look_waiting {h : Handle} (hh : h ∈ w.groups.values) : ∃ e, w.look h = some e := by
  obtain ⟨_, g, _, hg, _⟩ := hw.waiting hh
  exact ⟨g.entry h, by rw [World.look, hg]; rfl⟩

theorem map_handle_waiting : w.plain.waiting.map Entry.handle = w.groups.values := by
  have hl : ∀ l : List Handle, (∀ h ∈ l, ∃ e, w.look h = some e) →
      (l.filterMap w.look).map Entry.handle = l := by
    intro l hl
    induction l with
    | nil => rfl
    | cons h l ih =>
      obtain ⟨e, he⟩ := hl h (by simp)
      rw [List.filterMap_cons_some he, List.map_cons, World.look_handle he,
        ih fun k hk => hl k (by simp [hk])]
  exact hl _ fun h hh => hw.look_waiting hh

theorem length_waiting : w.plain.waiting.length = w.groups.length := by
  rw [← List.length_map, hw.map_handle_waiting, Dict.length_values]

theorem ordered_waiting : w.plain.waiting.Pairwise fun e e' => e.handle < e'.handle := by
  have ho := hw.ordered
  rwa [← hw.map_handle_waiting, List.pairwise_map] at ho

theorem plain_look (h : Handle) : w.plain.look h = w.look h := by
  rw [PlainQueue.look]
  by_cases hh : h ∈ w.groups.values
  · obtain ⟨e, he⟩ := hw.look_waiting hh
    have hf : w.plain.waiting.find? (fun e => decide (e.handle = h)) = some e := by
      refine find?_eq_some_of_unique ?_ (by simp [World.look_handle he]) ?_
      · exact World.mem_waiting.mpr (by rw [World.look_handle he]; exact ⟨hh, he⟩)
      · intro e' he' hk
        have hl := (World.mem_waiting.mp he').2
        rw [of_decide_eq_true hk, he] at hl
        exact (Option.some.inj hl).symm
    rw [hf, he]
    rfl
  · have hf : w.plain.waiting.find? (fun e => decide (e.handle = h)) = none := by
      refine List.find?_eq_none.mpr fun e he hk => hh ?_
      rw [← of_decide_eq_true hk]
      exact (World.mem_waiting.mp he).1
    rw [hf, Option.none_or]
    exact if_neg hh

theorem plain_find (id : I) : w.plain.find (.hashable id) = (w.groups.get? id).bind w.look := by
  rw [PlainQueue.find]
  cases hid : w.groups.get? id with
  | none =>
    refine List.find?_eq_none.mpr fun e he hk => ?_
    obtain ⟨hh, hl⟩ := World.mem_waiting.mp he
    obtain ⟨id', g, hid', hg, hgid⟩ := hw.waiting hh
    obtain ⟨g', hg', hge⟩ := World.look_eq_some.mp hl
    obtain rfl := Option.some.inj (hg.symm.trans hg')
    have hk' : g.groupId = .hashable id := by
      have := of_decide_eq_true hk
      rwa [← hge] at this
    obtain rfl := Value.hashable.inj (hgid.symm.trans hk')
    rw [hid] at hid'
    cases hid'
  | some h =>
    obtain ⟨g, hg, hgid⟩ := hw.bearing id h hid
    have hh := Dict.mem_values_of_get? hid
    have hl : w.look h = some (g.entry h) := World.look_eq_some.mpr ⟨g, hg, rfl⟩
    rw [Option.bind_some, hl]
    refine find?_eq_some_of_unique (World.mem_waiting.mpr ⟨hh, hl⟩) (by simp [Group.entry, hgid]) ?_
    intro e he hk
    obtain ⟨hh', hl'⟩ := World.mem_waiting.mp he
    obtain ⟨id', g', hid', hg', hgid'⟩ := hw.waiting hh'
    obtain ⟨g'', hg'', hge⟩ := World.look_eq_some.mp hl'
    obtain rfl := Option.some.inj (hg'.symm.trans hg'')
    have hk' : g'.groupId = .hashable id := by
      have := of_decide_eq_true hk
      rwa [← hge] at this
    obtain rfl := Value.hashable.inj (hgid'.symm.trans hk')
    have hhe := Option.some.inj (hid'.symm.trans hid)
    rw [hhe, hl] at hl'
    exact (Option.some.inj hl').symm

theorem plain_groupOf (m : M) : w.plain.groupOf m =
    ((w.memberIndex.get? m).bind w.groups.get?).bind w.look := by
  rw [PlainQueue.groupOf]
  cases hm : w.memberIndex.get? m with
  | none =>
    refine List.find?_eq_none.mpr fun e he hk => ?_
    obtain ⟨hh, hl⟩ := World.mem_waiting.mp he
    obtain ⟨g, hg, hge⟩ := World.look_eq_some.mp hl
    obtain ⟨id, hid⟩ := Dict.mem_values_iff.mp hh
    have hmg : m ∈ g.members := by
      rw [← g.members_entry e.handle, hge]
      exact of_decide_eq_true hk
    rw [(hw.indexed m id).mpr ⟨e.handle, g, hid, hg, hmg⟩] at hm
    cases hm
  | some id =>
    obtain ⟨h, g, hid, hg, hmg⟩ := (hw.indexed m id).mp hm
    have hh := Dict.mem_values_of_get? hid
    have hl : w.look h = some (g.entry h) := World.look_eq_some.mpr ⟨g, hg, rfl⟩
    rw [Option.bind_some, hid, Option.bind_some, hl]
    refine find?_eq_some_of_unique (World.mem_waiting.mpr ⟨hh, hl⟩)
      (by rw [g.members_entry]; exact decide_eq_true hmg) ?_
    intro e he hk
    obtain ⟨hh', hl'⟩ := World.mem_waiting.mp he
    obtain ⟨g', hg', hge⟩ := World.look_eq_some.mp hl'
    have hmg' : m ∈ g'.members := by
      rw [← g'.members_entry e.handle, hge]
      exact of_decide_eq_true hk
    rw [hw.member_unique hh' hh hg' hg hmg' hmg, hl] at hl'
    exact (Option.some.inj hl').symm

end Registered

end Tito
