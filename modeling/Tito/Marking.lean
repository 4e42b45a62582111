import Tito.Admission

namespace Tito

open Lib Lib.Heapq

variable {I M : Type} [DecidableEq I] [DecidableEq M]

/-- The fields of a group that nothing changes after its admission. -/
def Group.shape (g : Group I M) : Value I × List M × Nat := (g.groupId, g.members, g.sequence)

def World.shapeAt (w : World I M) (h : Handle) : Option (Value I × List M × Nat) :=
  w.objects[h]?.map Group.shape

theorem Registered.of_shape {w w' : World I M} (hw : Registered w)
    (hshape : ∀ h, w'.shapeAt h = w.shapeAt h) (hlen : w'.objects.length = w.objects.length)
    (hgroups : w'.groups = w.groups) (hmembers : w'.memberIndex = w.memberIndex)
    (hseq : w'.sequence = w.sequence) : Registered w' := by
  have back : ∀ {h : Handle} {g' : Group I M}, w'.objects[h]? = some g' →
      ∃ g, w.objects[h]? = some g ∧ g.shape = g'.shape := by
    intro h g' hg'
    have hs := hshape h
    rw [World.shapeAt, hg', World.shapeAt] at hs
    exact Option.map_eq_some_iff.mp hs.symm
  have forth : ∀ {h : Handle} {g : Group I M}, w.objects[h]? = some g →
      ∃ g', w'.objects[h]? = some g' ∧ g'.shape = g.shape := by
    intro h g hg
    have hs := hshape h
    rw [World.shapeAt, World.shapeAt, hg] at hs
    exact Option.map_eq_some_iff.mp hs
  refine ⟨?_, by rw [hlen, hseq, hw.counted], ?_, by rw [hgroups]; exact hw.ordered, ?_⟩
  · intro h g' hg'
    obtain ⟨g, hg, he⟩ := back hg'
    rw [← hw.numbered h g hg]
    exact (congrArg (fun s => s.2.2) he).symm
  · intro id h hid
    rw [hgroups] at hid
    obtain ⟨g, hg, hgid⟩ := hw.bearing id h hid
    obtain ⟨g', hg', he⟩ := forth hg
    exact ⟨g', hg', (congrArg (fun s => s.1) he).trans hgid⟩
  · intro m id
    rw [hmembers, hgroups, hw.indexed m id]
    constructor
    · rintro ⟨h, g, hid, hg, hm⟩
      obtain ⟨g', hg', he⟩ := forth hg
      have hms : g'.members = g.members := congrArg (fun s => s.2.1) he
      exact ⟨h, g', hid, hg', hms ▸ hm⟩
    · rintro ⟨h, g', hid, hg', hm⟩
      obtain ⟨g, hg, he⟩ := back hg'
      have hms : g.members = g'.members := congrArg (fun s => s.2.1) he
      exact ⟨h, g, hid, hg, hms ▸ hm⟩

omit [DecidableEq I] [DecidableEq M] in
theorem shapeAt_set {w : World I M} {h : Handle} {g g' : Group I M} (hg : w.objects[h]? = some g)
    (hs : g'.shape = g.shape) (k : Handle) :
    ({ w with objects := w.objects.set h g' } : World I M).shapeAt k = w.shapeAt k := by
  simp only [World.shapeAt, List.getElem?_set]
  split
  · rename_i he
    subst he
    rw [if_pos (List.getElem?_eq_some_iff.mp hg).1, hg, Option.map_some, Option.map_some, hs]
  · rfl

omit [DecidableEq I] in
theorem isReady_of_get?_false {g : Group I M} {m : M} (hm : g.ready.get? m = some false) :
    g.isReady = false := by
  by_contra hr
  have hall := g.isReady_iff.mp (by simpa using hr)
  exact Bool.false_ne_true (hall (m, false) (Dict.get?_eq_some_iff.mp hm))

omit [DecidableEq I] [DecidableEq M] in
theorem not_mem_readyGroups {w : World I M} (hw : ReadyIndexed w) {h : Handle} {g : Group I M}
    (hg : w.objects[h]? = some g) (hr : g.isReady = false) : h ∉ w.readyGroups.keys := by
  intro hk
  obtain ⟨k, hk⟩ := Dict.mem_keys_iff.mp hk
  obtain ⟨_, rfl, _, g', hg', hr'⟩ := (hw.readied h k).mp hk
  obtain rfl := Option.some.inj (hg.symm.trans hg')
  exact absurd (hr'.symm.trans hr) (by decide)

omit [DecidableEq I] in
theorem groupMarkReady_run_of_absent {w : World I M} {h : Handle} (hg : w.objects[h]? = none)
    (v : Value M) : (groupMarkReady h v).run w = .error .noObject w := by
  simp [groupMarkReady, deref_run_of_none hg]

omit [DecidableEq I] in
theorem groupMarkReady_run_of_unhashable {w : World I M} {h : Handle} {g : Group I M}
    (hg : w.objects[h]? = some g) (t : String) : (groupMarkReady h (.unhashable t)).run w =
      .error (.tito (.notAMember (.unhashable t) g.groupId g.members)) w := by
  simp [groupMarkReady, deref_run hg, Group.markReady]

omit [DecidableEq I] in
theorem markReady_of_none {g : Group I M} {m : M} (hm : g.ready.get? m = none) :
    g.markReady (.hashable m) =
      .error (.tito (.notAMember (.hashable m) g.groupId g.members)) := by
  rw [Group.markReady]
  split <;> simp_all

omit [DecidableEq I] in
theorem markReady_of_true {g : Group I M} {m : M} (hm : g.ready.get? m = some true) :
    g.markReady (.hashable m) = .ok ⟨g, g.isReady, none⟩ := by
  rw [Group.markReady]
  split
  · simp_all
  · rfl
  · simp_all

omit [DecidableEq I] in
theorem markReady_of_false {g : Group I M} {m : M} (hm : g.ready.get? m = some false) :
    g.markReady (.hashable m) = .ok ⟨g.flag m hm, (g.flag m hm).isReady,
      if (g.flag m hm).isReady = true then g.onReady else none⟩ := by
  rw [Group.markReady]
  split
  · simp_all
  · simp_all
  · dsimp only
    split
    · rename_i hne
      have hf : (g.flag m hm).isReady = false := by simpa [Group.isReady] using hne
      simp [hf]
    · rename_i heq
      have ht : (g.flag m hm).isReady = true := by simpa [Group.isReady] using heq
      rw [ht, if_pos rfl]
      rfl

omit [DecidableEq I] in
theorem groupMarkReady_run_of_none {w : World I M} {h : Handle} {g : Group I M}
    (hg : w.objects[h]? = some g) {m : M} (hm : g.ready.get? m = none) :
    (groupMarkReady h (.hashable m)).run w =
      .error (.tito (.notAMember (.hashable m) g.groupId g.members)) w := by
  simp [groupMarkReady, deref_run hg, markReady_of_none hm]

omit [DecidableEq I] in
theorem groupMarkReady_run_of_true {w : World I M} {h : Handle} {g : Group I M}
    (hg : w.objects[h]? = some g) {m : M} (hm : g.ready.get? m = some true) :
    (groupMarkReady h (.hashable m)).run w = .ok g.isReady w := by
  have hs : w.objects.set h g = w.objects := by
    obtain ⟨hlt, he⟩ := List.getElem?_eq_some_iff.mp hg
    rw [← he, List.set_getElem_self]
  simp [groupMarkReady, deref_run hg, markReady_of_true hm, hs]

omit [DecidableEq I] [DecidableEq M] in
theorem noteReady_run {w : World I M} {h : Handle} {g : Group I M} (hg : w.objects[h]? = some g)
    (hs : g.sequence = h) (hn : h ∉ w.readyGroups.keys) :
    (noteReady h).run w = .ok () (w.noted h) := by
  simp [noteReady, deref_run hg, hs, hn, World.noted, World.wrote]

/-- A first mark raises one flag; the mark that completes a waiting group also enters it in
the ready index. -/
theorem groupMarkReady_run_of_false {w : World I M} (hw : Consistent w) {h : Handle} {g : Group I M}
    (hg : w.objects[h]? = some g) {m : M} (hm : g.ready.get? m = some false) :
    (groupMarkReady h (.hashable m)).run w = .ok (g.flag m hm).isReady (w.marked h g m hm) := by
  have hlt := (List.getElem?_eq_some_iff.mp hg).1
  have hnot := not_mem_readyGroups hw.toReadyIndexed hg (isReady_of_get?_false hm)
  have hfl : (w.flagged h g m hm).objects[h]? = some (g.flag m hm) := by
    simp [World.flagged, hlt]
  have hnote : (noteReady h).run (w.flagged h g m hm) = .ok () ((w.flagged h g m hm).noted h) :=
    noteReady_run hfl (hw.numbered h g hg) hnot
  have hstore : (store h (g.flag m hm)).run w = .ok () (w.flagged h g m hm) := rfl
  simp only [groupMarkReady, EStateM.run_bind, deref_run hg, markReady_of_false hm, hstore]
  cases hr : (g.flag m hm).isReady with
  | false => simp [hr, World.marked]
  | true =>
    cases hc : g.onReady with
    | none => simp [hr, hc, World.marked]
    | some c =>
      cases c
      simp [hr, hc, World.marked, hnote]

theorem flagged_registered {w : World I M} (hw : Registered w) {h : Handle} {g : Group I M}
    (hg : w.objects[h]? = some g) {m : M} (hm : g.ready.get? m = some false) :
    Registered (w.flagged h g m hm) :=
  hw.of_shape (shapeAt_set hg rfl) (List.length_set ..) rfl rfl rfl

theorem marked_registered {w : World I M} (hw : Registered w) {h : Handle} {g : Group I M}
    (hg : w.objects[h]? = some g) {m : M} (hm : g.ready.get? m = some false) :
    Registered (w.marked h g m hm) := by
  have hf := flagged_registered hw hg hm
  rw [World.marked]
  split
  · exact hf.of_shape (fun _ => rfl) rfl rfl rfl rfl
  · exact hf

omit [DecidableEq I] in
theorem objects_marked {w : World I M} {h : Handle} {g : Group I M} (hg : w.objects[h]? = some g)
    {m : M} (hm : g.ready.get? m = some false) (k : Handle) :
    (w.marked h g m hm).objects[k]? = if h = k then some (g.flag m hm) else w.objects[k]? := by
  have hlt := (List.getElem?_eq_some_iff.mp hg).1
  have ho : (w.marked h g m hm).objects = w.objects.set h (g.flag m hm) := by
    rw [World.marked]
    split <;> rfl
  rw [ho, List.getElem?_set]
  simp [hlt]

omit [DecidableEq I] in
theorem ready_marked {w : World I M} {h : Handle} {g : Group I M} (hg : w.objects[h]? = some g)
    {m : M} (hm : g.ready.get? m = some false) (k : Handle) :
    (∃ g', (w.marked h g m hm).objects[k]? = some g' ∧ g'.isReady = true) ↔
      if h = k then (g.flag m hm).isReady = true
      else ∃ g', w.objects[k]? = some g' ∧ g'.isReady = true := by
  rw [objects_marked hg hm]
  split
  · simp
  · exact Iff.rfl

omit [DecidableEq I] in
theorem carried_marked {w : World I M} (hw : ReadyIndexed w) {h : Handle} {g : Group I M}
    (hg : w.objects[h]? = some g) {m : M} (hm : g.ready.get? m = some false) (k : Handle)
    (g' : Group I M) (hg' : (w.marked h g m hm).objects[k]? = some g') :
    g'.onReady = if k ∈ w.groups.values then w.onReadyCallback else none := by
  rw [objects_marked hg hm] at hg'
  split at hg'
  · rename_i he
    subst he
    rw [← Option.some.inj hg']
    exact hw.carried h g hg
  · exact hw.carried k g' hg'

omit [DecidableEq I] [DecidableEq M] in
theorem onReady_iff {w : World I M} (hw : ReadyIndexed w) {h : Handle} {g : Group I M}
    (hg : w.objects[h]? = some g) :
    g.onReady = some .noteReady ↔ w.strictOrder = false ∧ h ∈ w.groups.values := by
  rw [hw.carried h g hg, hw.callback]
  cases w.strictOrder <;> simp

theorem noted_readyIndexed {w : World I M} (hw : Consistent w) {h : Handle} {g : Group I M}
    (hg : w.objects[h]? = some g) {m : M} (hm : g.ready.get? m = some false)
    (hc : (g.flag m hm).isReady = true ∧ g.onReady = some .noteReady) :
    ReadyIndexed (w.marked h g m hm) := by
  have hcarried := carried_marked hw.toReadyIndexed hg hm
  have hready := ready_marked hg hm
  have hnot := not_mem_readyGroups hw.toReadyIndexed hg (isReady_of_get?_false hm)
  obtain ⟨hstrict, hwait⟩ := (onReady_iff hw.toReadyIndexed hg).mp hc.2
  have hheap : h ∉ w.readyHeap := fun hh => (hw.heap_stale h hh).elim hnot fun hd => hd.2 hwait
  have hperm := heappush_perm w.readyHeap h
  have hmk : w.marked h g m hm = (w.flagged h g m hm).noted h := if_pos hc
  rw [hmk] at hcarried hready ⊢
  refine ⟨hw.callback, hcarried, ?_, heappush_isHeap hw.heap h, ?_, ?_, ?_, ?_⟩
  · intro s k
    refine Iff.trans (b := (if s = h then some h else w.readyGroups.get? s) = some k) ?_ ?_
    · exact Eq.congr_left (Dict.get?_set w.readyGroups h s h)
    by_cases hs : s = h
    · subst hs
      rw [if_pos rfl, Option.some.injEq]
      constructor
      · rintro rfl
        exact ⟨hstrict, rfl, hwait, (hready s).mpr ((if_pos rfl).mpr hc.1)⟩
      · rintro ⟨_, rfl, _⟩
        rfl
    · rw [if_neg hs, hw.readied s k]
      by_cases hk : h = k
      · subst hk
        exact ⟨fun hr => absurd hr.2.1 hs, fun hr => absurd hr.2.1 hs⟩
      · have hrk := hready k
        rw [if_neg hk] at hrk
        rw [← hrk]
        rfl
  · exact hperm.nodup_iff.mpr (List.nodup_cons.mpr ⟨hheap, hw.heap_nodup⟩)
  · intro s hs
    refine hperm.mem_iff.mpr ?_
    rcases Dict.mem_keys_set.mp hs with rfl | hs
    · exact List.mem_cons_self
    · exact List.mem_cons_of_mem _ (hw.heap_holds s hs)
  · intro s hs
    rcases List.mem_cons.mp (hperm.mem_iff.mp hs) with rfl | hs
    · exact Or.inl (Dict.mem_keys_set.mpr (Or.inl rfl))
    · exact (hw.heap_stale s hs).imp_left fun hk => Dict.mem_keys_set.mpr (Or.inr hk)
  · exact fun hs => absurd (hstrict.symm.trans hs) (by decide)

theorem flagged_readyIndexed {w : World I M} (hw : Consistent w) {h : Handle} {g : Group I M}
    (hg : w.objects[h]? = some g) {m : M} (hm : g.ready.get? m = some false)
    (hc : ¬ ((g.flag m hm).isReady = true ∧ g.onReady = some .noteReady)) :
    ReadyIndexed (w.marked h g m hm) := by
  have hcarried := carried_marked hw.toReadyIndexed hg hm
  have hready := ready_marked hg hm
  have hmk : w.marked h g m hm = w.flagged h g m hm := if_neg hc
  rw [hmk] at hcarried hready ⊢
  refine ⟨hw.callback, hcarried, ?_, hw.heap, hw.heap_nodup, hw.heap_holds, hw.heap_stale,
    hw.heap_strict⟩
  intro s k
  refine (hw.readied s k).trans ?_
  by_cases hk : h = k
  · subst hk
    have hno : ¬ ∃ g', w.objects[h]? = some g' ∧ g'.isReady = true := by
      rintro ⟨g', hg', hr⟩
      obtain rfl := Option.some.inj (hg.symm.trans hg')
      exact absurd (hr.symm.trans (isReady_of_get?_false hm)) (by decide)
    constructor
    · exact fun hr => absurd hr.2.2.2 hno
    · rintro ⟨hs, _, hwait, hr⟩
      have hself := hready h
      rw [if_pos rfl] at hself
      exact absurd ⟨hself.mp hr, (onReady_iff hw.toReadyIndexed hg).mpr ⟨hs, hwait⟩⟩ hc
  · have hrk := hready k
    rw [if_neg hk] at hrk
    rw [← hrk]
    rfl

theorem marked_readyIndexed {w : World I M} (hw : Consistent w) {h : Handle} {g : Group I M}
    (hg : w.objects[h]? = some g) {m : M} (hm : g.ready.get? m = some false) :
    ReadyIndexed (w.marked h g m hm) := by
  by_cases hc : (g.flag m hm).isReady = true ∧ g.onReady = some .noteReady
  · exact noted_readyIndexed hw hg hm hc
  · exact flagged_readyIndexed hw hg hm hc

theorem marked_consistent {w : World I M} (hw : Consistent w) {h : Handle} {g : Group I M}
    (hg : w.objects[h]? = some g) {m : M} (hm : g.ready.get? m = some false) :
    Consistent (w.marked h g m hm) :=
  { marked_registered hw.toRegistered hg hm, marked_readyIndexed hw hg hm with }

end Tito
