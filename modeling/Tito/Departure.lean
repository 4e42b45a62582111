import Tito.Readiness

namespace Tito

open Lib Lib.Heapq

variable {I M : Type} [DecidableEq I] [DecidableEq M]

omit [DecidableEq I] [DecidableEq M] in
theorem compactReadyHeap_run (w : World I M) : compactReadyHeap.run w = .ok () w.compacted := by
  by_cases hl : w.readyHeap.length ≤ 2 * w.readyGroups.length + 8
  · simp [compactReadyHeap, World.compacted, hl]
  · simp [compactReadyHeap, World.compacted, hl]

omit [DecidableEq I] in
theorem forM_delMember_run (ms : List M) (hnd : ms.Nodup) (w : World I M)
    (hms : ∀ m ∈ ms, m ∈ w.memberIndex.keys) :
    (forM ms delMember).run w = .ok () { w with
      memberIndex := w.memberIndex.eraseAll ms, trace := w.trace ++ ms.map .delMember } := by
  induction ms generalizing w with
  | nil => simp [Dict.eraseAll]
  | cons m ms ih =>
    rw [List.nodup_cons] at hnd
    have hm : (delMember m).run w =
        .ok () ({ w with memberIndex := w.memberIndex.erase m }.wrote (.delMember m)) := by
      simp [delMember, hms m List.mem_cons_self]
    rw [List.forM_cons, EStateM.run_bind, hm]
    dsimp only
    rw [ih hnd.2]
    · simp [World.wrote, Dict.eraseAll]
    · intro a ha
      exact Dict.mem_keys_erase.mpr ⟨fun he => hnd.1 (he ▸ ha), hms a (List.mem_cons_of_mem m ha)⟩

theorem remove_run {w : World I M} (hw : Registered w) {id : I} {h : Handle} {g : Group I M}
    (hid : w.groups.get? id = some h) (hg : w.objects[h]? = some g) :
    (remove h).run w = .ok () (w.removed id h g) := by
  obtain ⟨g', hg', hgid⟩ := hw.bearing id h hid
  obtain rfl := Option.some.inj (hg.symm.trans hg')
  have hdel : (delGroup g.groupId).run w =
      .ok () ({ w with groups := w.groups.erase id }.wrote (.delGroup id)) := by
    simp [delGroup, hgid, Dict.mem_keys_of_get? hid]
  have hms := hw.member_mem_keys hid hg
  have hfor := forM_delMember_run g.members g.members_nodup
    ({ w with groups := w.groups.erase id }.wrote (.delGroup id)) hms
  have hset : ∀ u : World I M, u.objects = w.objects → (setOnReady h none).run u =
      .ok () { u with objects := w.objects.set h g.detached } := by
    intro u hu
    rw [setOnReady_run (hu ▸ hg), hu]
    rfl
  simp only [remove, EStateM.run_bind, deref_run hg, hdel, List.forM_eq_forM, hfor]
  rw [hset]
  · simp only [popReady, EStateM.run_bind, EStateM.run_get, hw.numbered h g hg, Dict.contains_iff]
    by_cases hr : h ∈ w.readyGroups.keys
    · simp [hr, World.removed, World.withdrawn, World.wrote, compactReadyHeap_run]
    · simp [hr, World.removed, World.withdrawn, World.wrote, Dict.erase_of_not_mem]
  · rfl

section

variable {w : World I M} {id : I} {h : Handle} {g : Group I M}

theorem values_withdrawn (hw : Registered w) (hid : w.groups.get? id = some h) :
    (w.withdrawn id h g).groups.values = w.groups.values.filter fun k => decide (k ≠ h) :=
  Dict.values_erase hw.values_nodup hid

theorem mem_values_withdrawn (hw : Registered w) (hid : w.groups.get? id = some h) {k : Handle} :
    k ∈ (w.withdrawn id h g).groups.values ↔ k ∈ w.groups.values ∧ k ≠ h := by
  rw [values_withdrawn hw hid, List.mem_filter, decide_eq_true_iff]

theorem objects_withdrawn (hg : w.objects[h]? = some g) (k : Handle) :
    (w.withdrawn id h g).objects[k]? = if h = k then some g.detached else w.objects[k]? := by
  rw [World.withdrawn, List.getElem?_set]
  simp [(List.getElem?_eq_some_iff.mp hg).1]

theorem withdrawn_registered (hw : Registered w) (hid : w.groups.get? id = some h)
    (hg : w.objects[h]? = some g) : Registered (w.withdrawn id h g) := by
  have hother : ∀ {j k}, (w.withdrawn id h g).groups.get? j = some k ↔
      j ≠ id ∧ w.groups.get? j = some k := by
    intro j k
    rw [World.withdrawn, Dict.get?_erase]
    by_cases hj : j = id <;> simp [hj]
  have hne : ∀ {j k}, j ≠ id → w.groups.get? j = some k → h ≠ k :=
    fun hj hjk hk => hj (hw.id_unique hjk (hk ▸ hid))
  refine ⟨?_, ?_, ?_, ?_, ?_⟩
  · intro k g' hg'
    rw [objects_withdrawn hg] at hg'
    split at hg'
    · rename_i he
      rw [← Option.some.inj hg', ← he]
      exact hw.numbered h g hg
    · exact hw.numbered k g' hg'
  · rw [World.withdrawn, List.length_set]
    exact hw.counted
  · intro j k hjk
    obtain ⟨hj, hjk⟩ := hother.mp hjk
    rw [objects_withdrawn hg, if_neg (hne hj hjk)]
    exact hw.bearing j k hjk
  · rw [values_withdrawn hw hid]
    exact hw.ordered.filter _
  · intro m j
    rw [World.withdrawn, Dict.get?_eraseAll, ← World.withdrawn]
    constructor
    · intro hm
      split at hm
      · cases hm
      rename_i hmg
      obtain ⟨k, g', hjk, hg', hmg'⟩ := (hw.indexed m j).mp hm
      have hj : j ≠ id := by
        rintro rfl
        obtain rfl := Option.some.inj (hid.symm.trans hjk)
        obtain rfl := Option.some.inj (hg.symm.trans hg')
        exact hmg hmg'
      refine ⟨k, g', hother.mpr ⟨hj, hjk⟩, ?_, hmg'⟩
      rw [objects_withdrawn hg, if_neg (hne hj hjk), hg']
    · rintro ⟨k, g', hjk, hg', hmg'⟩
      obtain ⟨hj, hjk⟩ := hother.mp hjk
      rw [objects_withdrawn hg, if_neg (hne hj hjk)] at hg'
      have hmg : m ∉ g.members := by
        intro hmg
        exact hne hj hjk (hw.member_unique (Dict.mem_values_of_get? hid)
          (Dict.mem_values_of_get? hjk) hg hg' hmg hmg')
      rw [if_neg hmg]
      exact (hw.indexed m j).mpr ⟨k, g', hjk, hg', hmg'⟩

/-- Leaving takes the group out of the ready map; the heap may keep its number as stale. -/
theorem withdrawn_readyIndexed (hw : Consistent w) (hid : w.groups.get? id = some h)
    (hg : w.objects[h]? = some g) : ReadyIndexed (w.withdrawn id h g) := by
  have hvals : ∀ {k}, k ∈ (w.withdrawn id h g).groups.values ↔ k ∈ w.groups.values ∧ k ≠ h :=
    mem_values_withdrawn hw.toRegistered hid
  have hlt := hw.lt_sequence (Dict.mem_values_of_get? hid)
  refine ⟨hw.callback, ?_, ?_, hw.heap, hw.heap_nodup, ?_, ?_, hw.heap_strict⟩
  · intro k g' hg'
    rw [objects_withdrawn hg] at hg'
    split at hg'
    · rename_i he
      rw [← Option.some.inj hg', if_neg fun hk => (hvals.mp hk).2 he.symm]
      rfl
    · rename_i he
      have hk : k ∈ (w.withdrawn id h g).groups.values ↔ k ∈ w.groups.values :=
        hvals.trans (and_iff_left (Ne.symm he))
      simp only [hk]
      exact hw.carried k g' hg'
  · intro s k
    rw [World.withdrawn, Dict.get?_erase, ← World.withdrawn]
    by_cases hs : s = h
    · rw [if_pos hs]
      constructor
      · intro hn
        cases hn
      · rintro ⟨_, rfl, hk, _⟩
        exact absurd hs (hvals.mp hk).2
    · rw [if_neg hs, hw.readied s k]
      refine and_congr_right fun _ => and_congr_right fun hsk => ?_
      rw [hvals, objects_withdrawn hg, if_neg (hsk ▸ Ne.symm hs)]
      exact and_congr_left fun _ => (and_iff_left (hsk ▸ hs)).symm
  · exact fun s hs => hw.heap_holds s (Dict.mem_keys_erase.mp hs).2
  · intro s hs
    by_cases he : s = h
    · exact Or.inr ⟨he ▸ hlt, fun hk => (hvals.mp hk).2 he⟩
    · refine (hw.heap_stale s hs).imp (fun hk => Dict.mem_keys_erase.mpr ⟨he, hk⟩) ?_
      exact fun hd => ⟨hd.1, fun hk => hd.2 (hvals.mp hk).1⟩

omit [DecidableEq I] [DecidableEq M] in
theorem compacted_readyIndexed (hw : ReadyIndexed w) : ReadyIndexed w.compacted := by
  rw [World.compacted]
  split
  · exact hw
  rename_i hl
  have hp := heapify_perm w.readyGroups.keys
  refine ⟨hw.callback, hw.carried, hw.readied, heapify_isHeap _, ?_, ?_, ?_, ?_⟩
  · exact hp.nodup_iff.mpr w.readyGroups.nodup
  · exact fun s hs => hp.mem_iff.mpr hs
  · exact fun s hs => Or.inl (hp.mem_iff.mp hs)
  · intro hs
    rw [hw.heap_strict hs, List.length_nil] at hl
    omega

theorem compacted_consistent (hw : Consistent w) : Consistent w.compacted := by
  have hr : Registered w.compacted := by
    rw [World.compacted]
    split
    · exact hw.toRegistered
    · exact ⟨hw.numbered, hw.counted, hw.bearing, hw.ordered, hw.indexed⟩
  exact { hr, compacted_readyIndexed hw.toReadyIndexed with }

omit [DecidableEq I] [DecidableEq M] in
theorem plain_compacted : w.compacted.plain = w.plain := by
  rw [World.compacted]
  split <;> rfl

theorem removed_consistent (hw : Consistent w) (hid : w.groups.get? id = some h)
    (hg : w.objects[h]? = some g) : Consistent (w.removed id h g) := by
  have hwd : Consistent (w.withdrawn id h g) :=
    { withdrawn_registered hw.toRegistered hid hg, withdrawn_readyIndexed hw hid hg with }
  rw [World.removed]
  split
  · exact compacted_consistent hwd
  · exact hwd

theorem look_withdrawn (hg : w.objects[h]? = some g) (k : Handle) :
    (w.withdrawn id h g).look k = w.look k := by
  rw [World.look, objects_withdrawn hg]
  split
  · rename_i he
    subst he
    rw [World.look, hg]
    rfl
  · rfl

theorem plain_removed (hw : Registered w) (hid : w.groups.get? id = some h)
    (hg : w.objects[h]? = some g) : (w.removed id h g).plain = w.plain.remove (g.entry h) := by
  have hp : (w.removed id h g).plain = (w.withdrawn id h g).plain := by
    rw [World.removed]
    split
    · exact plain_compacted
    · rfl
  rw [hp]
  have hvals : (w.withdrawn id h g).groups.values =
      w.groups.values.filter fun k => decide (k ≠ h) := values_withdrawn hw hid
  have hlook : ∀ k, (w.withdrawn id h g).look k = w.look k := look_withdrawn hg
  apply PlainQueue.ext
  · rfl
  · simp only [World.plain, PlainQueue.remove, hvals, List.filter_filterMap, List.filterMap_filter]
    refine List.filterMap_congr fun k _ => ?_
    rw [hlook]
    cases hl : w.look k with
    | none => simp
    | some e => simp [Option.filter, World.look_handle hl, Group.entry]
  · funext k
    simp only [World.plain, PlainQueue.remove, mem_values_withdrawn hw hid, hlook]
    by_cases hk : k = h
    · subst hk
      have hl : w.look k = some (g.entry k) := World.look_eq_some.mpr ⟨g, hg, rfl⟩
      simp [hl, Group.entry]
    · simp [hk, Function.update, Group.entry]
  · rfl

omit [DecidableEq I] [DecidableEq M] in
theorem objects_compacted : w.compacted.objects = w.objects := by
  rw [World.compacted]
  split <;> rfl

theorem objects_removed : (w.removed id h g).objects = w.objects.set h g.detached := by
  rw [World.removed]
  split
  · rw [objects_compacted]
    rfl
  · rfl

theorem look_removed (hg : w.objects[h]? = some g) (k : Handle) :
    (w.removed id h g).look k = w.look k := by
  have hl : (w.withdrawn id h g).look k = w.look k := look_withdrawn hg k
  rw [World.look, objects_removed]
  exact hl

end

omit [DecidableEq I] [DecidableEq M] in
theorem showGroup_run {w : World I M} {h : Handle} {e : Entry I M} (he : w.look h = some e) :
    (showGroup (some h)).run w = .ok (.group e) w := by
  simp [showGroup, he]

theorem cancel_simulated {w : World I M} (hw : Consistent w) (id : Value I) :
    Simulated w (.cancel id) := by
  cases hid : id.toOption.bind w.groups.get? with
  | none =>
    have hfind := not_found_of_find hw.toRegistered hid
    refine .of_error (e := .tito (.groupNotQueued id)) ?_ hw ?_
    · simp [perform, cancel, find_run, hid]
    · simp [PlainQueue.step, PlainQueue.cancel, hfind]
  | some h =>
    obtain ⟨i, g, hih, hg, hfind⟩ := found_of_find hw.toRegistered hid
    have hl : (w.removed i h g).look h = some (g.entry h) := by
      rw [look_removed hg]
      exact World.look_eq_some.mpr ⟨g, hg, rfl⟩
    refine .of_ok (a := .group (g.entry h)) ?_ (removed_consistent hw hih hg) ?_
      (.single (.remove hih hg))
    · simp [perform, cancel, find_run, hid, remove_run hw.toRegistered hih hg, showGroup_run hl]
    · rw [PlainQueue.step, PlainQueue.cancel, hfind, plain_removed hw.toRegistered hih hg]

omit [DecidableEq I] [DecidableEq M] in
theorem forM_setOnReady_run (hs : List Handle) (w : World I M)
    (hin : ∀ h ∈ hs, h < w.objects.length) :
    ∃ os : List (Group I M),
      (forM hs fun h => setOnReady h none).run w = .ok () { w with objects := os } ∧
      ∀ k, os[k]? = w.objects[k]?.map fun g => if k ∈ hs then g.detached else g := by
  induction hs generalizing w with
  | nil => exact ⟨w.objects, rfl, by simp⟩
  | cons h hs ih =>
    have hlt := hin h List.mem_cons_self
    have hg : w.objects[h]? = some w.objects[h] := List.getElem?_eq_getElem hlt
    obtain ⟨os, hr, ho⟩ := ih { w with objects := w.objects.set h w.objects[h].detached }
      (by simpa using fun k hk => hin k (List.mem_cons_of_mem h hk))
    refine ⟨os, ?_, fun k => ?_⟩
    · rw [List.forM_cons, EStateM.run_bind, setOnReady_run hg]
      exact hr
    · rw [ho, List.getElem?_set]
      by_cases hk : h = k
      · subst hk
        rw [if_pos rfl, if_pos hlt, hg]
        by_cases hh : h ∈ hs <;> simp [hh, Group.detached]
      · simp [hk, Ne.symm hk]

theorem clear_run {w : World I M} (hw : Consistent w) :
    clear.run w = .ok w.groups.values w.cleared := by
  obtain ⟨os, hr, ho⟩ := forM_setOnReady_run w.groups.values w
    fun h hh => hw.counted ▸ hw.lt_sequence hh
  have hos : os = w.objects.map Group.detached := by
    refine List.ext_getElem? fun k => ?_
    rw [ho, List.getElem?_map]
    refine Option.map_congr fun g hg => ?_
    split
    · rfl
    · rename_i hk
      have hc := hw.carried k g hg
      rw [if_neg hk] at hc
      exact Group.ext rfl rfl rfl rfl rfl hc
  simp [clear, hr, hos, World.cleared, World.wrote]

theorem cleared_consistent {w : World I M} (hw : Consistent w) : Consistent w.cleared where
  numbered := by
    intro h g hg
    rw [World.cleared, List.getElem?_map] at hg
    obtain ⟨g', hg', rfl⟩ := Option.map_eq_some_iff.mp hg
    exact hw.numbered h g' hg'
  counted := by rw [World.cleared, List.length_map, hw.counted]
  bearing := by simp [World.cleared]
  ordered := List.Pairwise.nil
  indexed := by simp [World.cleared]
  callback := hw.callback
  carried := by
    intro h g hg
    rw [World.cleared, List.getElem?_map] at hg
    obtain ⟨g', _, rfl⟩ := Option.map_eq_some_iff.mp hg
    rfl
  readied := by simp [World.cleared]
  heap := isHeap_nil
  heap_nodup := List.nodup_nil
  heap_holds := by simp [World.cleared]
  heap_stale := by simp [World.cleared]
  heap_strict := fun _ => rfl

omit [DecidableEq I] [DecidableEq M] in
theorem look_cleared (w : World I M) (h : Handle) : w.cleared.look h = w.look h := by
  rw [World.look, World.cleared, List.getElem?_map, Option.map_map]
  rfl

theorem plain_cleared {w : World I M} (hw : Registered w) : w.cleared.plain = w.plain.clear := by
  apply PlainQueue.ext
  · rfl
  · rfl
  · funext h
    have hn : h ∉ w.cleared.groups.values := List.not_mem_nil
    have hd : w.cleared.plain.departed h = w.cleared.look h := by
      simp only [World.plain, hn, if_false]
    rw [hd, look_cleared]
    exact (hw.plain_look h).symm
  · rfl

omit [DecidableEq I] [DecidableEq M] in
theorem showGroups_run {w : World I M} (hs : List Handle) :
    (showGroups hs).run w = .ok (.groups (hs.filterMap w.look)) w := rfl

theorem clear_simulated {w : World I M} (hw : Consistent w) : Simulated w .clear := by
  refine .of_ok (a := .groups (w.groups.values.filterMap w.cleared.look)) ?_
    (cleared_consistent hw) ?_ (.single .clear)
  · simp [perform, clear_run hw, showGroups_run]
  · rw [plain_cleared hw.toRegistered, funext (look_cleared w)]
    rfl

end Tito
