import Tito.Refinement

namespace Tito

open Lib Lib.Heapq Lib.Mealy

variable {I M : Type} [DecidableEq I] [DecidableEq M]

/-- The group at `h` is `g`, and the map holds it. -/
def World.Waits (w : World I M) (h : Handle) (g : Group I M) : Prop :=
  w.objects[h]? = some g ∧ h ∈ w.groups.values

/-- The group at `h` is `g`, and it has left. -/
def World.Departed (w : World I M) (h : Handle) (g : Group I M) : Prop :=
  w.objects[h]? = some g ∧ h ∉ w.groups.values

def Group.Complete (g : Group I M) : Prop := ∀ m ∈ g.members, g.ready.get? m = some true

/-- What the five indexes and the group objects say of each other, in the terms of the source. -/
structure IndexesAgree (w : World I M) : Prop where
  groups_bear : ∀ id h, w.groups.get? id = some h → ∃ g, w.Waits h g ∧ g.groupId = .hashable id
  groups_ordered :
    (w.groups.values.map fun h => w.objects[h]?.map Group.sequence).Pairwise fun s s' =>
      ∃ n n', s = some n ∧ s' = some n' ∧ n < n'
  sequence_lt : ∀ (h : Handle) (g : Group I M), w.objects[h]? = some g → g.sequence < w.sequence
  sequence_unique : ∀ (h h' : Handle) (g g' : Group I M), w.objects[h]? = some g →
    w.objects[h']? = some g' → g.sequence = g'.sequence → h = h'
  members_indexed : ∀ m id, w.memberIndex.get? m = some id ↔
    ∃ h g, w.Waits h g ∧ g.groupId = .hashable id ∧ m ∈ g.members
  members_disjoint : ∀ h h' g g' m, w.Waits h g → w.Waits h' g' → m ∈ g.members →
    m ∈ g'.members → h = h'
  members_nodup : ∀ h g, w.Waits h g → g.members ≠ [] ∧ g.members.Nodup
  ready_counted : ∀ h g, w.Waits h g →
    g.readyCount = (g.members.filter fun m => g.ready.get? m = some true).length
  strict_unindexed : w.strictOrder = true → w.readyHeap = [] ∧ w.readyGroups = Dict.empty ∧
    ∀ (h : Handle) (g : Group I M), w.objects[h]? = some g → g.onReady = none
  relaxed_callback : w.strictOrder = false → ∀ (h : Handle) (g : Group I M),
    w.objects[h]? = some g → (g.onReady = some .noteReady ↔ h ∈ w.groups.values)
  relaxed_ready : w.strictOrder = false → ∀ s h, w.readyGroups.get? s = some h ↔
    ∃ g, w.Waits h g ∧ g.sequence = s ∧ g.Complete
  relaxed_heap : w.strictOrder = false → IsHeap w.readyHeap ∧ w.readyHeap.Nodup ∧
    (∀ s ∈ w.readyGroups.keys, s ∈ w.readyHeap) ∧
    ∀ s ∈ w.readyHeap, s ∈ w.readyGroups.keys ∨ ∃ h g, w.Departed h g ∧ g.sequence = s

omit [DecidableEq I] in
theorem Group.isReady_iff_complete (g : Group I M) : g.isReady = true ↔ g.Complete := by
  rw [g.isReady_iff, Group.Complete]
  constructor
  · intro h m hm
    rw [← g.keys_ready] at hm
    obtain ⟨b, hb⟩ := Dict.mem_keys_iff.mp hm
    rw [hb]
    exact congrArg some (h (m, b) (Dict.get?_eq_some_iff.mp hb))
  · intro h e he
    have hs : g.ready.get? e.1 = some e.2 := Dict.get?_eq_some_iff.mpr he
    have hm : e.1 ∈ g.members := g.keys_ready ▸ Dict.mem_keys_of_get? hs
    exact Option.some.inj (hs.symm.trans (h _ hm))

omit [DecidableEq I] in
theorem Group.readyCount_eq (g : Group I M) :
    g.readyCount = (g.members.filter fun m => g.ready.get? m = some true).length := by
  have hflag : ∀ e ∈ g.ready.entries, (decide (g.ready.get? e.1 = some true)) = (e.2 == true) := by
    intro e he
    have hs : g.ready.get? e.1 = some e.2 := Dict.get?_eq_some_iff.mpr he
    cases hb : e.2 <;> simp [hs, hb]
  rw [g.count_ready, ← g.keys_ready, Dict.keys, List.filter_map, List.length_map, Dict.values,
    List.count_eq_countP, List.countP_map, List.countP_eq_length_filter]
  exact congrArg List.length (List.filter_congr fun e he => (hflag e he).symm)

theorem Consistent.indexesAgree {w : World I M} (hw : Consistent w) : IndexesAgree w where
  groups_bear := by
    intro id h hid
    obtain ⟨g, hg, hgid⟩ := hw.bearing id h hid
    exact ⟨g, ⟨hg, Dict.mem_values_of_get? hid⟩, hgid⟩
  groups_ordered := by
    rw [List.pairwise_map]
    refine hw.ordered.imp_of_mem fun {h h'} hh hh' hlt => ?_
    obtain ⟨_, g, _, hg, _⟩ := hw.waiting hh
    obtain ⟨_, g', _, hg', _⟩ := hw.waiting hh'
    refine ⟨h, h', ?_, ?_, hlt⟩
    · rw [hg, Option.map_some, hw.numbered h g hg]
    · rw [hg', Option.map_some, hw.numbered h' g' hg']
  sequence_lt := by
    intro h g hg
    rw [hw.numbered h g hg, ← hw.counted]
    exact (List.getElem?_eq_some_iff.mp hg).1
  sequence_unique := by
    intro h h' g g' hg hg' hs
    rw [← hw.numbered h g hg, ← hw.numbered h' g' hg', hs]
  members_indexed := by
    intro m id
    rw [hw.indexed m id]
    constructor
    · rintro ⟨h, g, hid, hg, hm⟩
      obtain ⟨g', hg', hgid⟩ := hw.bearing id h hid
      obtain rfl := Option.some.inj (hg.symm.trans hg')
      exact ⟨h, g, ⟨hg, Dict.mem_values_of_get? hid⟩, hgid, hm⟩
    · rintro ⟨h, g, ⟨hg, hh⟩, hgid, hm⟩
      obtain ⟨id', g', hid', hg', hgid'⟩ := hw.waiting hh
      obtain rfl := Option.some.inj (hg.symm.trans hg')
      obtain rfl := Value.hashable.inj (hgid.symm.trans hgid')
      exact ⟨h, g, hid', hg, hm⟩
  members_disjoint := fun h h' g g' m hg hg' hm hm' =>
    hw.member_unique hg.2 hg'.2 hg.1 hg'.1 hm hm'
  members_nodup := fun _ g _ => ⟨g.members_ne_nil, g.members_nodup⟩
  ready_counted := fun _ g _ => g.readyCount_eq
  strict_unindexed := by
    intro hs
    refine ⟨hw.heap_strict hs, ?_, ?_⟩
    · refine Dict.ext (List.eq_nil_iff_forall_not_mem.mpr fun e he => ?_)
      have hr := (hw.readied e.1 e.2).mp (Dict.get?_eq_some_iff.mpr he)
      exact absurd (hs.symm.trans hr.1) (by decide)
    · intro h g hg
      rw [hw.carried h g hg, hw.callback, hs]
      split <;> rfl
  relaxed_callback := by
    intro hs h g hg
    rw [hw.carried h g hg, hw.callback, hs]
    by_cases hh : h ∈ w.groups.values <;> simp [hh]
  relaxed_ready := by
    intro hs s h
    rw [hw.readied s h]
    constructor
    · rintro ⟨_, rfl, hh, g, hg, hr⟩
      exact ⟨g, ⟨hg, hh⟩, hw.numbered s g hg, g.isReady_iff_complete.mp hr⟩
    · rintro ⟨g, ⟨hg, hh⟩, rfl, hr⟩
      exact ⟨hs, hw.numbered h g hg, hh, g, hg, g.isReady_iff_complete.mpr hr⟩
  relaxed_heap := by
    intro _
    refine ⟨hw.heap, hw.heap_nodup, hw.heap_holds, fun s hs => ?_⟩
    refine (hw.heap_stale s hs).imp_right fun hd => ?_
    have hlt : s < w.objects.length := hw.counted ▸ hd.1
    have hg : w.objects[s]? = some w.objects[s] := List.getElem?_eq_getElem hlt
    exact ⟨s, _, ⟨hg, hd.2⟩, hw.numbered s _ hg⟩

/-- Every group object stays at its place, and keeps its id, its members and its number. -/
def Persists (w w' : World I M) : Prop := ∀ (h : Handle) (g : Group I M), w.objects[h]? = some g →
  ∃ g', w'.objects[h]? = some g' ∧ g'.shape = g.shape

omit [DecidableEq I] [DecidableEq M] in
theorem Persists.refl (w : World I M) : Persists w w := fun _ g hg => ⟨g, hg, rfl⟩

omit [DecidableEq I] [DecidableEq M] in
theorem Persists.trans {w w' w'' : World I M} (h : Persists w w') (h' : Persists w' w'') :
    Persists w w'' := by
  intro k g hg
  obtain ⟨g', hg', hs⟩ := h k g hg
  obtain ⟨g'', hg'', hs'⟩ := h' k g' hg'
  exact ⟨g'', hg'', hs'.trans hs⟩

omit [DecidableEq I] [DecidableEq M] in
theorem Persists.of_shapeAt {w w' : World I M} (h : ∀ k, w'.shapeAt k = w.shapeAt k) :
    Persists w w' := by
  intro k g hg
  have hs := h k
  rw [World.shapeAt, World.shapeAt, hg] at hs
  exact Option.map_eq_some_iff.mp hs

theorem Move.persists {w w' : World I M} (h : Move w w') : Persists w w' := by
  cases h with
  | mark hg hm => exact .of_shapeAt (shapeAt_marked hg hm)
  | @remove id h g hid hg =>
    have hs : g.detached.shape = g.shape := rfl
    refine .of_shapeAt fun k => ?_
    rw [World.shapeAt, objects_removed]
    exact shapeAt_set hg hs k
  | clear =>
    refine .of_shapeAt fun k => ?_
    rw [World.shapeAt, World.cleared, List.getElem?_map, Option.map_map]
    rfl
  | pop => exact .refl w

theorem Moves.persists {w w' : World I M} (h : Moves w w') : Persists w w' := by
  induction h with
  | refl => exact .refl w
  | tail _ hm ih => exact ih.trans hm.persists

theorem Evolves.persists {op : Op I M} {w w' : World I M} (h : Evolves op w w') :
    Persists w w' := by
  cases op with
  | admitGroup =>
    rcases h with rfl | ⟨_, _, _, _⟩
    · exact .refl w'
    · intro k g hg
      exact ⟨g, Search.getElem?_concat_eq_some.mpr (Or.inl hg), rfl⟩
  | _ => exact Moves.persists h

theorem run_persists {w : World I M} (hw : Consistent w) (ops : List (Op I M)) :
    Persists w (final step w ops) := by
  induction ops generalizing w with
  | nil => exact .refl w
  | cons op ops ih =>
    exact (step_simulated hw op).evolves.persists.trans (ih (step_consistent hw op))

/-- In every state of every run all indexes agree, and the groups of the whole run, departed
ones included, are still the objects they were, under numbers of their own. -/
theorem indexes_agree (strictOrder : Bool) (earlier later : List (Op I M)) :
    IndexesAgree (final step (World.init strictOrder) (earlier ++ later)) ∧
      ∀ (h : Handle) (g : Group I M),
        (final step (World.init strictOrder) earlier).objects[h]? = some g →
        ∃ g', (final step (World.init strictOrder) (earlier ++ later)).objects[h]? = some g' ∧
          g'.groupId = g.groupId ∧ g'.members = g.members ∧ g'.sequence = g.sequence := by
  have hw : ∀ ops : List (Op I M), Consistent (final step (World.init strictOrder) ops) :=
    fun ops => consistent_of_reachable ⟨ops, rfl⟩
  refine ⟨(hw _).indexesAgree, fun h g hg => ?_⟩
  obtain ⟨g', hg', hs⟩ := run_persists (hw earlier) later h g hg
  rw [final_append]
  exact ⟨g', hg', congrArg Prod.fst hs, congrArg (fun s => s.2.1) hs, congrArg (fun s => s.2.2) hs⟩

end Tito
