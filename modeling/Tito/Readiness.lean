import Tito.Marking

namespace Tito

open Lib

variable {I M : Type} [DecidableEq I] [DecidableEq M]

omit [DecidableEq I] in
theorem plain_mark {w w' : World I M} {h : Handle} {m : M} (hs : w'.strictOrder = w.strictOrder)
    (hg : w'.groups = w.groups) (hn : w'.sequence = w.sequence)
    (hl : ∀ k, w'.look k = (w.look k).map (Entry.markAt h m)) : w'.plain = w.plain.mark h m := by
  apply PlainQueue.ext
  · exact hs
  · simp only [World.plain, PlainQueue.mark, hg, List.map_filterMap]
    exact List.filterMap_congr fun k _ => hl k
  · funext k
    simp only [World.plain, PlainQueue.mark, hg, hl]
    split <;> rfl
  · exact hn

omit [DecidableEq I] in
theorem look_marked {w : World I M} {h : Handle} {g : Group I M} (hg : w.objects[h]? = some g)
    {m : M} (hm : g.ready.get? m = some false) (k : Handle) :
    (w.marked h g m hm).look k = (w.look k).map (Entry.markAt h m) := by
  have hobj : (w.marked h g m hm).objects = w.objects.set h (g.flag m hm) := by
    rw [World.marked]
    split <;> rfl
  have hlt := (List.getElem?_eq_some_iff.mp hg).1
  rw [World.look, hobj, List.getElem?_set, World.look, Option.map_map]
  by_cases hk : h = k
  · subst hk
    rw [if_pos rfl, if_pos hlt, hg, Option.map_some, Option.map_some, Group.mark_entry]
    simp [Entry.markAt, Group.entry]
  · rw [if_neg hk]
    refine Option.map_congr fun g' _ => ?_
    simp [Entry.markAt, Group.entry, Ne.symm hk]

omit [DecidableEq I] in
theorem plain_marked {w : World I M} {h : Handle} {g : Group I M} (hg : w.objects[h]? = some g)
    {m : M} (hm : g.ready.get? m = some false) :
    (w.marked h g m hm).plain = w.plain.mark h m := by
  have hsame : (w.marked h g m hm).strictOrder = w.strictOrder ∧
      (w.marked h g m hm).groups = w.groups ∧ (w.marked h g m hm).sequence = w.sequence := by
    rw [World.marked]
    split <;> exact ⟨rfl, rfl, rfl⟩
  exact plain_mark hsame.1 hsame.2.1 hsame.2.2 (look_marked hg hm)

omit [DecidableEq I] in
theorem plain_mark_of_true {w : World I M} {h : Handle} {g : Group I M}
    (hg : w.objects[h]? = some g) {m : M} (hm : g.ready.get? m = some true) :
    w.plain = w.plain.mark h m := by
  refine plain_mark rfl rfl rfl fun k => ?_
  rw [World.look, Option.map_map]
  refine Option.map_congr fun g' hg' => ?_
  by_cases hk : k = h
  · subst hk
    obtain rfl := Option.some.inj (hg.symm.trans hg')
    have he : (g.entry k).handle = k := rfl
    rw [Function.comp_apply, Entry.markAt, if_pos he, Group.mark_entry_of_true hm]
  · simp [Entry.markAt, Group.entry, hk]

omit [DecidableEq I] in
theorem shapeAt_marked {w : World I M} {h : Handle} {g : Group I M} (hg : w.objects[h]? = some g)
    {m : M} (hm : g.ready.get? m = some false) (k : Handle) :
    (w.marked h g m hm).shapeAt k = w.shapeAt k := by
  have he : (g.flag m hm).shape = g.shape := rfl
  have hs : (w.flagged h g m hm).shapeAt k = w.shapeAt k := shapeAt_set hg he k
  rw [World.marked]
  split
  · exact hs
  · exact hs

/-- One mark of a member, first or repeated: it answers whether the group is now complete. -/
theorem groupMarkReady_member {w : World I M} (hw : Consistent w) {h : Handle} {g : Group I M}
    (hg : w.objects[h]? = some g) {m : M} (hm : m ∈ g.members) :
    ∃ w', (groupMarkReady h (.hashable m)).run w = .ok ((g.entry h).mark m).ready w' ∧
      Consistent w' ∧ w'.plain = w.plain.mark h m ∧ (∀ k, w'.shapeAt k = w.shapeAt k) ∧
      Moves w w' := by
  rw [← g.keys_ready] at hm
  obtain ⟨b, hb⟩ := Dict.mem_keys_iff.mp hm
  cases b with
  | true =>
    refine ⟨w, ?_, hw, plain_mark_of_true hg hb, fun _ => rfl, .refl⟩
    rw [groupMarkReady_run_of_true hg hb, Group.mark_entry_of_true hb, Group.ready_entry]
  | false =>
    refine ⟨_, ?_, marked_consistent hw hg hb, plain_marked hg hb, shapeAt_marked hg hb,
      .single (.mark hg hb)⟩
    rw [groupMarkReady_run_of_false hw hg hb, ← Group.mark_entry hb, Group.ready_entry]

theorem plain_groupMarkReady {w : World I M} (hw : Registered w) {h : Handle} {g : Group I M}
    (hg : w.objects[h]? = some g) {m : M} (hm : m ∈ g.members) :
    w.plain.groupMarkReady h (.hashable m) =
      (.ok (.bool ((g.entry h).mark m).ready), w.plain.mark h m) := by
  have hl : w.look h = some (g.entry h) := World.look_eq_some.mpr ⟨g, hg, rfl⟩
  simp only [PlainQueue.groupMarkReady, hw.plain_look, hl, Group.members_entry, hm, if_true]

theorem groupMarkReady_simulated {w : World I M} (hw : Consistent w) (h : Handle) (v : Value M) :
    Simulated w (.groupMarkReady h v) := by
  have hlook := hw.plain_look h
  cases hg : w.objects[h]? with
  | none =>
    have hl : w.look h = none := by rw [World.look, hg]; rfl
    refine .of_error (e := .noObject) ?_ hw ?_
    · simp [perform, groupMarkReady_run_of_absent hg]
    · simp [PlainQueue.step, PlainQueue.groupMarkReady, hlook, hl]
  | some g =>
    have hl : w.look h = some (g.entry h) := World.look_eq_some.mpr ⟨g, hg, rfl⟩
    cases v with
    | unhashable t =>
      refine .of_error (e := .tito (.notAMember (.unhashable t) g.groupId g.members)) ?_ hw ?_
      · simp [perform, groupMarkReady_run_of_unhashable hg]
      · simp only [PlainQueue.step, PlainQueue.groupMarkReady, hlook, hl, Group.members_entry]
        rfl
    | hashable m =>
      by_cases hm : m ∈ g.members
      · obtain ⟨w', hr, hw', hp, _, hmv⟩ := groupMarkReady_member hw hg hm
        refine .of_ok (a := .bool ((g.entry h).mark m).ready) (by simp [perform, hr]) hw' ?_ hmv
        rw [PlainQueue.step, plain_groupMarkReady hw.toRegistered hg hm, hp]
      · have hn : g.ready.get? m = none := by
          rw [Dict.get?_eq_none_iff, g.keys_ready]
          exact hm
        refine .of_error (e := .tito (.notAMember (.hashable m) g.groupId g.members)) ?_ hw ?_
        · simp [perform, groupMarkReady_run_of_none hg hn]
        · simp only [PlainQueue.step, PlainQueue.groupMarkReady, hlook, hl, Group.members_entry, hm,
            if_false]
          rfl

theorem groupOf_run {w : World I M} (hw : Registered w) (v : Value M) :
    (groupOf v).run w =
      .ok (v.toOption.bind fun m => (w.memberIndex.get? m).bind w.groups.get?) w := by
  cases v with
  | unhashable t => rfl
  | hashable m =>
    simp only [groupOf, EStateM.run_bind, EStateM.run_get, Value.toOption, Option.bind_some]
    cases hm : w.memberIndex.get? m with
    | none => rfl
    | some id =>
      obtain ⟨h, _, hid, _⟩ := (hw.indexed m id).mp hm
      simp [hid]

theorem markReady_simulated {w : World I M} (hw : Consistent w) (v : Value M) :
    Simulated w (.markReady v) := by
  have hrun := groupOf_run hw.toRegistered v
  have refused : (v.toOption.bind fun m => (w.memberIndex.get? m).bind w.groups.get?) = none →
      v.toOption.bind w.plain.groupOf = none → Simulated w (.markReady v) := by
    intro hn hp
    refine .of_error (e := .tito (.memberNotQueued v)) ?_ hw ?_
    · simp [perform, markReady, hrun, hn]
    · simp [PlainQueue.step, PlainQueue.markReady, hp]
  cases v with
  | unhashable t => exact refused rfl rfl
  | hashable m =>
    have hof := hw.plain_groupOf m
    cases hm : w.memberIndex.get? m with
    | none =>
      rw [hm] at hof
      exact refused (by simp [Value.toOption, hm]) (by simpa [Value.toOption] using hof)
    | some id =>
      obtain ⟨h, g, hid, hg, hmg⟩ := (hw.indexed m id).mp hm
      obtain ⟨w', hr, hw', hp, _, hmv⟩ := groupMarkReady_member hw hg hmg
      have hl : w.look h = some (g.entry h) := World.look_eq_some.mpr ⟨g, hg, rfl⟩
      rw [hm, Option.bind_some, hid, Option.bind_some, hl] at hof
      refine .of_ok (a := .bool ((g.entry h).mark m).ready) ?_ hw' ?_ hmv
      · simp [perform, markReady, hrun, Value.toOption, hm, hid, hr]
      · rw [PlainQueue.step, PlainQueue.markReady, Value.toOption, Option.bind_some, hof]
        dsimp only
        rw [show (g.entry h).handle = h from rfl, plain_groupMarkReady hw.toRegistered hg hmg, hp]

theorem forM_groupMarkReady_run {h : Handle} {members : List M} (ms : List M) (hms : ms ⊆ members)
    {w : World I M} (hw : Consistent w) {g : Group I M} (hg : w.objects[h]? = some g)
    (hgm : g.members = members) :
    ∃ w', (forM ms fun m => (fun _ => ()) <$> groupMarkReady h (.hashable m)).run w = .ok () w' ∧
      Consistent w' ∧ w'.plain = ms.foldl (fun q m => q.mark h m) w.plain ∧ Moves w w' := by
  induction ms generalizing w g with
  | nil => exact ⟨w, rfl, hw, rfl, .refl⟩
  | cons m ms ih =>
    have hm : m ∈ g.members := hgm ▸ hms List.mem_cons_self
    obtain ⟨w₁, hr, hw₁, hp, hs, hmv⟩ := groupMarkReady_member hw hg hm
    have hh := hs h
    rw [World.shapeAt, World.shapeAt, hg] at hh
    obtain ⟨g₁, hg₁, he⟩ := Option.map_eq_some_iff.mp hh
    have hgm₁ : g₁.members = members := (congrArg (fun s => s.2.1) he).trans hgm
    obtain ⟨w₂, hr₂, hw₂, hp₂, hmv₂⟩ :=
      ih (fun a ha => hms (List.mem_cons_of_mem m ha)) hw₁ hg₁ hgm₁
    refine ⟨w₂, ?_, hw₂, by rw [hp₂, hp, List.foldl_cons], hmv.trans hmv₂⟩
    simp [hr, hr₂]

omit [DecidableEq M] in
theorem find_run (w : World I M) (id : Value I) :
    (find id).run w = .ok (id.toOption.bind w.groups.get?) w := by
  cases id <;> rfl

theorem plain_find_value {w : World I M} (hw : Registered w) (id : Value I) :
    w.plain.find id = (id.toOption.bind w.groups.get?).bind w.look := by
  cases id with
  | unhashable t => rfl
  | hashable i => exact hw.plain_find i

theorem found_of_find {w : World I M} (hw : Registered w) {id : Value I} {h : Handle}
    (hid : id.toOption.bind w.groups.get? = some h) :
    ∃ i g, w.groups.get? i = some h ∧ w.objects[h]? = some g ∧
      w.plain.find id = some (g.entry h) := by
  obtain ⟨i, _, hih⟩ := Option.bind_eq_some_iff.mp hid
  obtain ⟨g, hg, _⟩ := hw.bearing i h hih
  have hl : w.look h = some (g.entry h) := World.look_eq_some.mpr ⟨g, hg, rfl⟩
  refine ⟨i, g, hih, hg, ?_⟩
  rw [plain_find_value hw, hid, Option.bind_some, hl]

theorem not_found_of_find {w : World I M} (hw : Registered w) {id : Value I}
    (hid : id.toOption.bind w.groups.get? = none) : w.plain.find id = none := by
  rw [plain_find_value hw, hid, Option.bind_none]

theorem markGroupReady_simulated {w : World I M} (hw : Consistent w) (id : Value I) :
    Simulated w (.markGroupReady id) := by
  cases hid : id.toOption.bind w.groups.get? with
  | none =>
    have hfind := not_found_of_find hw.toRegistered hid
    refine .of_error (e := .tito (.groupNotQueued id)) ?_ hw ?_
    · simp [perform, markGroupReady, find_run, hid]
    · simp [PlainQueue.step, PlainQueue.markGroupReady, hfind]
  | some h =>
    obtain ⟨i, g, _, hg, hfind⟩ := found_of_find hw.toRegistered hid
    obtain ⟨w', hr, hw', hp, hmv⟩ := forM_groupMarkReady_run g.members (List.Subset.refl _) hw hg rfl
    refine .of_ok (a := .bool true) ?_ hw' ?_ hmv
    · simp [perform, markGroupReady, find_run, hid, deref_run hg, hr]
    · rw [PlainQueue.step, PlainQueue.markGroupReady, hfind]
      dsimp only
      rw [show (g.entry h).handle = h from rfl, Group.members_entry, hp]

end Tito
