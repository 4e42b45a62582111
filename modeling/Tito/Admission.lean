import Tito.Abstraction

namespace Tito

open Lib Lib.Search

variable {I M : Type} [DecidableEq I] [DecidableEq M]

omit [DecidableEq I] in
theorem forM_setMember_run (id : I) (ms : List M) (w : World I M) :
    (forM ms (setMember id)).run w = .ok () { w with
      memberIndex := w.memberIndex.setAll ms id
      trace := w.trace ++ ms.map (.setMember · id) } := by
  induction ms generalizing w with
  | nil => simp [Dict.setAll]
  | cons m ms ih =>
    have hm : (setMember id m).run w =
      .ok () ({ w with memberIndex := w.memberIndex.set m id }.wrote (.setMember m id)) := rfl
    rw [List.forM_cons, EStateM.run_bind, hm]
    dsimp only
    rw [ih]
    simp [World.wrote, Dict.setAll]

theorem admitCommit_run {w : World I M} {id : I} {g : Group I M} (hid : id ∉ w.groups.keys)
    (hms : ∀ m ∈ g.members, m ∉ w.memberIndex.keys) :
    (admitCommit id g).run w = .ok w.objects.length (w.admitted id g) := by
  have hq : g.members.filter (fun m => w.memberIndex.contains m) = [] := by
    simpa using hms
  simp only [admitCommit, EStateM.run_bind, EStateM.run_get, hq, Dict.contains_iff, hid, if_false,
    ne_eq, not_true_eq_false]
  simp [allocate, setGroup, forM_setMember_run, setOnReady, deref, store, World.admitted, World.wrote]

theorem admitted_registered {w : World I M} (hw : Registered w) {id : I} {g : Group I M}
    (hgid : g.groupId = .hashable id) (hid : id ∉ w.groups.keys)
    (hms : ∀ m ∈ g.members, m ∉ w.memberIndex.keys) : Registered (w.admitted id g) := by
  have hold : ∀ {j h}, w.groups.get? j = some h → j ≠ id ∧ h < w.objects.length := by
    intro j h hj
    refine ⟨fun e => hid (e ▸ Dict.mem_keys_of_get? hj), ?_⟩
    obtain ⟨g', hg', _⟩ := hw.bearing j h hj
    exact (List.getElem?_eq_some_iff.mp hg').1
  refine ⟨?_, ?_, ?_, ?_, ?_⟩
  · intro h g' hg'
    rcases getElem?_concat_eq_some.mp hg' with hg' | ⟨rfl, rfl⟩
    · exact hw.numbered h g' hg'
    · exact hw.counted.symm
  · simp [World.admitted, hw.counted]
  · intro j h hj
    rw [World.admitted, Dict.get?_set] at hj
    split at hj
    · rename_i he
      obtain rfl := Option.some.inj hj
      exact ⟨_, getElem?_concat_eq_some.mpr (Or.inr ⟨rfl, rfl⟩), he ▸ hgid⟩
    · obtain ⟨g', hg', hgid'⟩ := hw.bearing j h hj
      exact ⟨g', getElem?_concat_eq_some.mpr (Or.inl hg'), hgid'⟩
  · rw [World.admitted, Dict.values_set_of_not_mem hid, List.pairwise_append]
    refine ⟨hw.ordered, List.pairwise_singleton _ _, ?_⟩
    intro h hh k hk
    rw [List.mem_singleton.mp hk, hw.counted]
    exact hw.lt_sequence hh
  · intro m j
    rw [World.admitted, Dict.get?_setAll]
    dsimp only
    constructor
    · intro hm
      split at hm
      · rename_i hmg
        obtain rfl := Option.some.inj hm
        exact ⟨_, _, by rw [Dict.get?_set, if_pos rfl],
          getElem?_concat_eq_some.mpr (Or.inr ⟨rfl, rfl⟩), hmg⟩
      · obtain ⟨h, g', hj, hg', hmg'⟩ := (hw.indexed m j).mp hm
        exact ⟨h, g', by rw [Dict.get?_set, if_neg (hold hj).1, hj],
          getElem?_concat_eq_some.mpr (Or.inl hg'), hmg'⟩
    · rintro ⟨h, g', hj, hg', hmg'⟩
      rw [Dict.get?_set] at hj
      split at hj
      · rename_i he
        obtain rfl := Option.some.inj hj
        rcases getElem?_concat_eq_some.mp hg' with hg' | ⟨-, rfl⟩
        · exact absurd (List.getElem?_eq_some_iff.mp hg').1 (Nat.lt_irrefl _)
        · rw [if_pos hmg', he]
      · rcases getElem?_concat_eq_some.mp hg' with hg' | ⟨rfl, -⟩
        · have hm := (hw.indexed m j).mpr ⟨h, g', hj, hg', hmg'⟩
          rw [if_neg fun hmg => hms m hmg (Dict.mem_keys_of_get? hm), hm]
        · exact absurd (hold hj).2 (Nat.lt_irrefl _)

theorem admitted_readyIndexed {w : World I M} (hw : Consistent w) {id : I} {g : Group I M}
    (hid : id ∉ w.groups.keys) (hready : g.isReady = false) :
    ReadyIndexed (w.admitted id g) := by
  have hvals : (w.admitted id g).groups.values = w.groups.values ++ [w.objects.length] :=
    Dict.values_set_of_not_mem hid _
  have hcb : (w.admitted id g).onReadyCallback = w.onReadyCallback := rfl
  refine ⟨hw.callback, ?_, ?_, hw.heap, hw.heap_nodup, hw.heap_holds, ?_, hw.heap_strict⟩
  · intro h g' hg'
    rw [hvals, hcb]
    rcases getElem?_concat_eq_some.mp hg' with hg' | ⟨rfl, rfl⟩
    · have hne : h ≠ w.objects.length := Nat.ne_of_lt (List.getElem?_eq_some_iff.mp hg').1
      simpa [hne] using hw.carried h g' hg'
    · simp
  · intro s h
    rw [hvals]
    refine (hw.readied s h).trans ?_
    constructor
    · rintro ⟨hs, rfl, hh, g', hg', hr⟩
      exact ⟨hs, rfl, List.mem_append_left _ hh, g', getElem?_concat_eq_some.mpr (Or.inl hg'), hr⟩
    · rintro ⟨hs, rfl, hh, g', hg', hr⟩
      rcases getElem?_concat_eq_some.mp hg' with hg' | ⟨rfl, rfl⟩
      · have hne : s ≠ w.objects.length := Nat.ne_of_lt (List.getElem?_eq_some_iff.mp hg').1
        exact ⟨hs, rfl, by simpa [hne] using hh, g', hg', hr⟩
      · exact absurd ((show g.isReady = true from hr).symm.trans hready) (by decide)
  · intro s hs
    rw [hvals]
    refine (hw.heap_stale s hs).imp_right fun hd => ⟨Nat.lt_succ_of_lt hd.1, ?_⟩
    have hne : s ≠ w.objects.length := by rw [hw.counted]; exact Nat.ne_of_lt hd.1
    simpa [hne] using hd.2

theorem admitted_consistent {w : World I M} (hw : Consistent w) {id : I} {g : Group I M}
    (hgid : g.groupId = .hashable id) (hready : g.isReady = false) (hid : id ∉ w.groups.keys)
    (hms : ∀ m ∈ g.members, m ∉ w.memberIndex.keys) : Consistent (w.admitted id g) :=
  { admitted_registered hw.toRegistered hgid hid hms, admitted_readyIndexed hw hid hready with }

theorem look_admitted (w : World I M) (id : I) (g : Group I M) (h : Handle) :
    (w.admitted id g).look h =
      if h = w.objects.length then some (g.entry h) else w.look h := by
  simp only [World.look, World.admitted, List.getElem?_append]
  split
  · rename_i hlt
    rw [if_neg (Nat.ne_of_lt hlt)]
  · rename_i hge
    by_cases he : h = w.objects.length
    · simp [he, Group.entry]
    · have hgt : w.objects.length < h :=
        Nat.lt_of_le_of_ne (Nat.le_of_not_lt hge) (Ne.symm he)
      simp [he, Nat.sub_ne_zero_of_lt hgt, List.getElem?_eq_none (Nat.le_of_lt hgt)]

theorem plain_admitted {w : World I M} (hw : Registered w) {id : I} {g : Group I M}
    (hid : id ∉ w.groups.keys) :
    (w.admitted id g).plain =
      { w.plain with
        waiting := w.plain.waiting ++ [g.entry w.sequence], arrivals := w.sequence + 1 } := by
  have hvals : (w.admitted id g).groups.values = w.groups.values ++ [w.objects.length] :=
    Dict.values_set_of_not_mem hid _
  have hold : ∀ h ∈ w.groups.values, (w.admitted id g).look h = w.look h := by
    intro h hh
    rw [look_admitted, if_neg (Nat.ne_of_lt (hw.counted ▸ hw.lt_sequence hh))]
  apply PlainQueue.ext
  · rfl
  · simp only [World.plain]
    rw [hvals, List.filterMap_append, List.filterMap_congr hold]
    simp [look_admitted, hw.counted]
  · funext h
    simp only [World.plain]
    rw [hvals, look_admitted]
    by_cases he : h = w.objects.length
    · subst he
      have hn : w.look w.objects.length = none := by simp [World.look]
      simp [hn]
    · simp [he]
  · rfl

omit [DecidableEq I] in
/-- The checks of `Group.__init__`, in the order in which it makes them. -/
theorem init_iterable (id : Value I) (vs : List (Value M)) (sequence : Nat) :
    (vs = [] ∧ Group.init id (.iterable vs) sequence = .error (.tito (.noMembers id))) ∨
    (vs ≠ [] ∧ (∃ v ∈ vs, isHashable v = false) ∧ Group.init id (.iterable vs) sequence =
      .error (.tito (.unhashableMembers id (vs.filter fun v => !isHashable v)))) ∨
    (∃ ms, vs = ms.map .hashable ∧ ¬ ms.Nodup ∧ Group.init id (.iterable vs) sequence =
      .error (.tito (.duplicateMembers id (duplicatesOf ms)))) ∨
    ∃ ms, ∃ hne : ms ≠ [], ∃ hnd : ms.Nodup, vs = ms.map .hashable ∧
      Group.init id (.iterable vs) sequence = .ok (Group.fresh id ms sequence hne hnd) := by
  by_cases hvs : vs = []
  · exact Or.inl ⟨hvs, by simp [Group.init, hvs]⟩
  right
  have hinit : Group.init id (.iterable vs) sequence = _ := dif_neg hvs
  rw [hinit]
  split
  · rename_i hm
    exact Or.inl ⟨hvs, hashAll_eq_none.mp hm, rfl⟩
  · rename_i ms hm
    right
    split
    · rename_i hlen
      exact Or.inr ⟨ms, ne_nil_of_hashAll hvs hm, (Dict.length_fromkeys_iff false).mp hlen,
        hashAll_eq_some.mp hm, rfl⟩
    · rename_i hlen
      exact Or.inl ⟨ms, hashAll_eq_some.mp hm,
        fun hnd => hlen ((Dict.length_fromkeys_iff false).mpr hnd), rfl⟩

/-- A call of the queue answers as the reference queue does and both stay in step. If it
raises, it has written nothing. -/
structure Simulated (w : World I M) (op : Op I M) : Prop where
  consistent : Consistent (step w op).2
  plain : ((step w op).1, (step w op).2.plain) = w.plain.step op
  evolves : Evolves op w (step w op).2
  refused : ∀ e, (step w op).1 = .error e → (step w op).2 = w

theorem Simulated.of_ok {w w' : World I M} {op : Op I M} {a : Answer I M}
    (hr : (perform op).run w = .ok a w') (hw : Consistent w')
    (hp : w.plain.step op = (.ok a, w'.plain)) (he : Evolves op w w') : Simulated w op := by
  have hs := step_of_ok hr
  refine ⟨?_, ?_, ?_, ?_⟩
  · rwa [hs]
  · rw [hs, hp]
  · rwa [hs]
  · intro e h
    rw [hs] at h
    cases h

theorem Simulated.of_error {w : World I M} {op : Op I M} {e : PyError I M}
    (hr : (perform op).run w = .error e w) (hw : Consistent w)
    (hp : w.plain.step op = (.error e, w.plain)) : Simulated w op := by
  have hs := step_of_error hr
  refine ⟨?_, ?_, ?_, ?_⟩
  · rwa [hs]
  · rw [hs, hp]
  · rw [hs]
    exact .refl op w
  · rw [hs]
    exact fun _ _ => rfl

theorem admit_run_of_error {w : World I M} {id : Value I} {members : Members M}
    {e : PyError I M} (h : admitBuild id members = .error e) :
    (perform (.admitGroup id members)).run w = .error e w := by
  simp [perform, admitGroup, h]

theorem admit_run_of_refused {w : World I M} {id : Value I} {members : Members M} {i : I}
    {g : Group I M} {e : PyError I M} (h : admitBuild id members = .ok (i, g))
    (hc : (admitCommit i g).run w = .error e w) :
    (perform (.admitGroup id members)).run w = .error e w := by
  simp [perform, admitGroup, h, hc]

theorem admit_run_of_ok {w w' : World I M} {id : Value I} {members : Members M} {i : I}
    {g : Group I M} {k : Handle} (h : admitBuild id members = .ok (i, g))
    (hc : (admitCommit i g).run w = .ok k w') :
    (perform (.admitGroup id members)).run w = .ok ((w'.look k).elim .none .group) w' := by
  simp [perform, admitGroup, h, hc, showGroup]

theorem admitCommit_run_of_queued {w : World I M} {id : I} {g : Group I M}
    (hid : id ∉ w.groups.keys)
    (hq : g.members.filter (fun m => w.memberIndex.contains m) ≠ []) :
    (admitCommit id g).run w =
      .error (.tito (.membersInQueue (g.members.filter fun m => w.memberIndex.contains m)
        ((g.members.filter fun m => w.memberIndex.contains m).filterMap fun m =>
          (w.memberIndex.get? m).map fun id => (m, id)))) w := by
  simp only [admitCommit, EStateM.run_bind, EStateM.run_get, Dict.contains_iff, hid, if_false, hq,
    ne_eq, not_false_eq_true, if_true, Effects.run_throw]

theorem admitCommit_run_of_listed {w : World I M} {id : I} {g : Group I M}
    (hid : id ∈ w.groups.keys) :
    (admitCommit id g).run w = .error (.tito (.idInQueue id)) w := by
  simp only [admitCommit, EStateM.run_bind, EStateM.run_get, Dict.contains_iff, hid, if_true,
    Effects.run_throw]

theorem listed_iff {w : World I M} (hw : Registered w) (id : I) :
    (∃ e ∈ w.plain.waiting, e.groupId = .hashable id) ↔ id ∈ w.groups.keys := by
  have hf := hw.plain_find id
  rw [PlainQueue.find] at hf
  constructor
  · rintro ⟨e, he, hk⟩
    by_contra hn
    rw [Dict.get?_eq_none_iff.mpr hn, Option.bind_none] at hf
    exact List.find?_eq_none.mp hf e he (decide_eq_true hk)
  · intro hk
    obtain ⟨h, hh⟩ := Dict.mem_keys_iff.mp hk
    obtain ⟨e, he⟩ := hw.look_waiting (Dict.mem_values_of_get? hh)
    rw [hh, Option.bind_some, he] at hf
    exact ⟨e, List.mem_of_find?_eq_some hf, by simpa using List.find?_some hf⟩

theorem plain_groupOf_id {w : World I M} (hw : Registered w) (m : M) :
    ((w.plain.groupOf m).bind fun e => e.groupId.toOption) = w.memberIndex.get? m := by
  rw [hw.plain_groupOf]
  cases hm : w.memberIndex.get? m with
  | none => rfl
  | some id =>
    obtain ⟨h, g, hid, hg, _⟩ := (hw.indexed m id).mp hm
    obtain ⟨g', hg', hgid⟩ := hw.bearing id h hid
    obtain rfl := Option.some.inj (hg.symm.trans hg')
    simp [hid, World.look, hg, Group.entry, hgid, Value.toOption]

theorem plain_groupOf_isSome {w : World I M} (hw : Registered w) (m : M) :
    (w.plain.groupOf m).isSome = w.memberIndex.contains m := by
  rw [hw.plain_groupOf, Dict.contains]
  cases hm : w.memberIndex.get? m with
  | none => rfl
  | some id =>
    obtain ⟨h, g, hid, hg, _⟩ := (hw.indexed m id).mp hm
    simp [hid, World.look, hg]

theorem refusal_of_nodup {w : World I M} (hw : Registered w) (id : I) {ms : List M} (hne : ms ≠ [])
    (hnd : ms.Nodup) :
    w.plain.refusal (.hashable id) (.iterable (ms.map .hashable)) =
      if id ∈ w.groups.keys then some (.tito (.idInQueue id))
      else if ms.filter (fun m => w.memberIndex.contains m) ≠ [] then
        some (.tito (.membersInQueue (ms.filter fun m => w.memberIndex.contains m)
          ((ms.filter fun m => w.memberIndex.contains m).filterMap fun m =>
            (w.memberIndex.get? m).map fun id => (m, id))))
      else none := by
  have hheld : ∀ m, ((w.plain.groupOf m).bind fun e => e.groupId.toOption.map fun id => (m, id)) =
      (w.memberIndex.get? m).map fun id => (m, id) := by
    intro m
    rw [← plain_groupOf_id hw, Option.map_bind]
    rfl
  rw [PlainQueue.refusal_map_hashable _ _ hne, if_neg (not_not.mpr hnd)]
  simp only [plain_groupOf_isSome hw, hheld, listed_iff hw]

theorem admit_simulated {w : World I M} (hw : Consistent w) (id : Value I) (members : Members M) :
    Simulated w (.admitGroup id members) := by
  have refused : ∀ {e}, admitBuild id members = .error e →
      w.plain.refusal id members = some e → Simulated w (.admitGroup id members) := by
    intro e he hp
    refine .of_error (admit_run_of_error he) hw ?_
    simp only [PlainQueue.step, PlainQueue.admitGroup, hp]
  cases members with
  | text t => exact refused rfl rfl
  | notIterable => exact refused rfl rfl
  | iterable vs =>
    rcases init_iterable id vs 0 with ⟨hvs, hi⟩ | ⟨hvs, hun, hi⟩ | ⟨ms, rfl, hnd, hi⟩ |
      ⟨ms, hne, hnd, rfl, hi⟩
    · exact refused (by rw [admitBuild, hi]) (by simp [PlainQueue.refusal, hvs])
    · exact refused (by rw [admitBuild, hi])
        (by simp only [PlainQueue.refusal, hvs, hun, if_true, if_false])
    · have hne : ms ≠ [] := fun h => hnd (h ▸ List.nodup_nil)
      exact refused (by rw [admitBuild, hi])
        (by rw [PlainQueue.refusal_map_hashable _ _ hne, if_pos hnd])
    · cases id with
      | unhashable t =>
        exact refused (by rw [admitBuild, hi])
          (by rw [PlainQueue.refusal_map_hashable _ _ hne, if_neg (not_not.mpr hnd)])
      | hashable i =>
        let g : Group I M := Group.fresh (.hashable i) ms 0 hne hnd
        have hb : admitBuild (.hashable i) (.iterable (ms.map .hashable)) = .ok (i, g) := by
          rw [admitBuild, hi]
        have hr := refusal_of_nodup hw.toRegistered i hne hnd
        by_cases hid : i ∈ w.groups.keys
        · rw [if_pos hid] at hr
          refine .of_error (admit_run_of_refused hb (admitCommit_run_of_listed hid)) hw ?_
          simp only [PlainQueue.step, PlainQueue.admitGroup, hr]
        · rw [if_neg hid] at hr
          by_cases hq : ms.filter (fun m => w.memberIndex.contains m) = []
          · rw [if_neg (not_not.mpr hq)] at hr
            have hms : ∀ m ∈ ms, m ∉ w.memberIndex.keys := by simpa using hq
            have hlen : ms.length ≠ 0 := fun h => hne (List.length_eq_zero_iff.mp h)
            have hunready : g.isReady = false := beq_eq_false_iff_ne.mpr (Ne.symm hlen)
            refine .of_ok (admit_run_of_ok hb (admitCommit_run hid hms))
              (admitted_consistent hw rfl hunready hid hms) ?_ (.inr (.commit rfl hunready hid hms))
            have he : (w.admitted i g).look w.objects.length = some (g.entry w.sequence) := by
              rw [look_admitted, if_pos rfl, hw.counted]
            have hg : g.entry w.sequence = ⟨w.sequence, .hashable i, ms.map fun m => (m, false)⟩ := by
              simp only [Group.entry, g, Group.fresh, Dict.entries_fromkeys hnd]
            rw [plain_admitted hw.toRegistered hid, he]
            simp only [PlainQueue.step, PlainQueue.admitGroup, hr,
              PlainQueue.filterMap_toOption_map_hashable, hg]
            rfl
          · rw [if_pos hq] at hr
            refine .of_error (admit_run_of_refused hb (admitCommit_run_of_queued hid hq)) hw ?_
            simp only [PlainQueue.step, PlainQueue.admitGroup, hr]
            rfl

end Tito
