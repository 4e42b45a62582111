import Tito.Misuse
import Tito.Accesses

namespace Tito

open Lib Lib.Mealy Lib.Text

variable {I M : Type}

section

variable [DecidableEq M]

theorem duplicatesFrom_eq {seen duplicates : List M} (ms : List M)
    (hdup : ∀ m, m ∈ duplicates ↔ 2 ≤ seen.count m) :
    ∃ ds, duplicatesFrom seen duplicates ms = duplicates ++ ds ∧ ds.Sublist ms ∧ ds.Nodup ∧
      ∀ m, m ∈ ds ↔ seen.count m < 2 ∧ 2 ≤ (seen ++ ms).count m := by
  induction ms generalizing seen duplicates with
  | nil =>
    refine ⟨[], by rw [duplicatesFrom, List.append_nil], List.Sublist.refl _, List.nodup_nil, ?_⟩
    intro m
    rw [List.append_nil]
    refine iff_of_false List.not_mem_nil ?_
    omega
  | cons a ms ih =>
    have hcount : ∀ m, (seen ++ a :: ms).count m = (a :: seen ++ ms).count m :=
      fun m => List.perm_middle.count_eq m
    have hone : ∀ m, (a :: seen).count m = seen.count m + if a = m then 1 else 0 := by
      intro m
      rw [List.count_cons]
      simp only [beq_iff_eq]
    have hle : ∀ m, (a :: seen).count m ≤ (a :: seen ++ ms).count m := by
      intro m
      rw [List.count_append]
      exact Nat.le_add_right _ _
    rw [duplicatesFrom]
    by_cases hsecond : a ∈ seen ∧ a ∉ duplicates
    · -- `a` comes for the second time
      have hpos := List.count_pos_iff.mpr hsecond.1
      have hlt : ¬ 2 ≤ seen.count a := fun h => hsecond.2 ((hdup a).mpr h)
      have hnext : ∀ m, m ∈ duplicates ++ [a] ↔ 2 ≤ (a :: seen).count m := by
        intro m
        rw [List.mem_append, List.mem_singleton, hdup m, hone m]
        by_cases hm : a = m
        · subst hm
          simp only [or_true, if_true, true_iff]
          omega
        · simp only [Ne.symm hm, or_false, hm, if_false, Nat.add_zero]
      obtain ⟨ds, hds, hsub, hnd, hmem⟩ := ih hnext
      have ha : a ∉ ds := by
        rw [hmem a, hone a, if_pos rfl]
        omega
      refine ⟨a :: ds, ?_, hsub.cons_cons a, List.nodup_cons.mpr ⟨ha, hnd⟩, fun m => ?_⟩
      · rw [if_pos hsecond, hds, List.append_assoc, List.singleton_append]
      · have hlem := hle m
        rw [List.mem_cons, hmem m, hcount m]
        rw [hone m] at hlem ⊢
        by_cases hm : a = m
        · subst hm
          simp only [if_true, true_or, true_iff] at hlem ⊢
          omega
        · simp only [hm, if_false, Nat.add_zero, Ne.symm hm, false_or]
    · -- `a` comes for the first time, or has been noted already
      have hnext : ∀ m, m ∈ duplicates ↔ 2 ≤ (a :: seen).count m := by
        intro m
        rw [hdup m, hone m]
        by_cases hm : a = m
        · subst hm
          rw [if_pos rfl]
          rcases not_and_or.mp hsecond with hs | hs
          · rw [List.count_eq_zero.mpr hs]
            omega
          · have := (hdup a).mp (not_not.mp hs)
            omega
        · rw [if_neg hm, Nat.add_zero]
      obtain ⟨ds, hds, hsub, hnd, hmem⟩ := ih hnext
      refine ⟨ds, by rw [if_neg hsecond, hds], hsub.cons a, hnd, fun m => ?_⟩
      rw [hmem m, hcount m]
      have := hnext m
      rw [hdup m] at this
      omega

theorem duplicatesOf_spec (ms : List M) :
    (duplicatesOf ms).Sublist ms ∧ (duplicatesOf ms).Nodup ∧
      ∀ m, m ∈ duplicatesOf ms ↔ 2 ≤ ms.count m := by
  have hnone : ∀ m : M, m ∈ [] ↔ 2 ≤ [].count m := fun m => by simp
  obtain ⟨ds, hds, hsub, hnd, hmem⟩ := duplicatesFrom_eq ms hnone
  have heq : duplicatesOf ms = ds := hds
  rw [heq]
  refine ⟨hsub, hnd, fun m => ?_⟩
  rw [hmem m, List.count_nil, List.nil_append]
  omega

end

/-- What the text of an error says, as a statement about the call that raised it and the line
the call was made on. -/
def TitoError.Truthful (q : PlainQueue I M) (op : Op I M) : TitoError I M → Prop
  | .textMembers id t => op = .admitGroup id (.text t)
  | .noMembers id => op = .admitGroup id (.iterable [])
  | .unhashableMembers id us =>
    ∃ vs, op = .admitGroup id (.iterable vs) ∧ us ≠ [] ∧ us = vs.filter fun v => !isHashable v
  | .duplicateMembers id ds =>
    ∃ ms : List M, op = .admitGroup id (.iterable (ms.map .hashable)) ∧ ds ≠ [] ∧ ds.Sublist ms ∧
      ds.Nodup ∧ ∀ m, m ∈ ds ↔ [m, m].Sublist ms
  | .unhashableId id => isHashable id = false ∧ ∃ vs, op = .admitGroup id (.iterable vs)
  | .idInQueue id =>
    (∃ vs, op = .admitGroup (.hashable id) (.iterable vs)) ∧
      ∃ e ∈ q.waiting, e.groupId = .hashable id
  | .membersInQueue ms held =>
    ∃ id given, op = .admitGroup id (.iterable (given.map .hashable)) ∧ ms ≠ [] ∧ ms.Sublist given ∧
      (∀ m, m ∈ ms ↔ m ∈ given ∧ ∃ e ∈ q.waiting, m ∈ e.members) ∧ held.map Prod.fst = ms ∧
      ∀ m i, (m, i) ∈ held → ∃ e ∈ q.waiting, m ∈ e.members ∧ e.groupId = .hashable i
  | .notAMember v id ms =>
    ∃ h e, op = .groupMarkReady h v ∧ q.look h = some e ∧ e.groupId = id ∧ e.members = ms ∧
      ∀ m ∈ ms, v ≠ .hashable m
  | .memberNotQueued v => op = .markReady v ∧ ∀ e ∈ q.waiting, ∀ m ∈ e.members, v ≠ .hashable m
  | .groupNotQueued id =>
    (op = .markGroupReady id ∨ op = .cancel id) ∧ ∀ e ∈ q.waiting, e.groupId ≠ id

/-- The values that an error is about, as its text writes them. -/
def TitoError.names (reprI : Value I → String) (reprM : Value M → String) :
    TitoError I M → List String
  | .textMembers g ms => [reprI g, ms]
  | .noMembers g => [reprI g]
  | .unhashableMembers g us => reprI g :: us.map reprM
  | .duplicateMembers g ds => reprI g :: ds.map fun m => reprM (.hashable m)
  | .notAMember m g ms => reprM m :: reprI g :: ms.map fun m => reprM (.hashable m)
  | .unhashableId g => [reprI g]
  | .idInQueue g => [reprI (.hashable g)]
  | .membersInQueue ms held =>
    (ms.map fun m => reprM (.hashable m)) ++
      held.map fun e => reprM (.hashable e.1) ++ ": " ++ reprI (.hashable e.2)
  | .memberNotQueued m => [reprM m]
  | .groupNotQueued g => [reprI g]

theorem TitoError.message_contains (reprI : Value I → String) (reprM : Value M → String)
    (e : TitoError I M) {part : String} (h : part ∈ e.names reprI reprM) :
    (e.message reprI reprM).contains part = true := by
  cases e with
  | textMembers g ms =>
    rcases List.mem_pair.mp h with rfl | rfl
    · iterate 6 apply contains_append_left
      apply contains_append_right
      apply contains_self
    · apply contains_append_left
      apply contains_append_right
      apply contains_self
  | noMembers g =>
    obtain rfl := List.mem_singleton.mp h
    apply contains_append_left
    apply contains_append_right
    apply contains_self
  | unhashableMembers g us =>
    rcases List.mem_cons.mp h with rfl | h
    · iterate 2 apply contains_append_left
      apply contains_append_right
      apply contains_self
    · apply contains_append_right
      exact contains_listed h "[" "]"
  | duplicateMembers g ds =>
    rcases List.mem_cons.mp h with rfl | h
    · iterate 2 apply contains_append_left
      apply contains_append_right
      apply contains_self
    · apply contains_append_right
      exact contains_listed h "[" "]"
  | notAMember m g ms =>
    rcases List.mem_cons.mp h with rfl | h
    · iterate 4 apply contains_append_left
      apply contains_self
    rcases List.mem_cons.mp h with rfl | h
    · iterate 2 apply contains_append_left
      apply contains_append_right
      apply contains_self
    · apply contains_append_right
      exact contains_listed h "[" "]"
  | unhashableId g =>
    obtain rfl := List.mem_singleton.mp h
    apply contains_append_left
    apply contains_append_right
    apply contains_self
  | idInQueue g =>
    obtain rfl := List.mem_singleton.mp h
    apply contains_append_left
    apply contains_append_right
    apply contains_self
  | membersInQueue ms held =>
    rcases List.mem_append.mp h with h | h
    · iterate 3 apply contains_append_left
      apply contains_append_right
      exact contains_listed h "[" "]"
    · apply contains_append_left
      apply contains_append_right
      exact contains_listed h "\x7b" "\x7d"
  | memberNotQueued m =>
    obtain rfl := List.mem_singleton.mp h
    iterate 2 apply contains_append_left
    apply contains_self
  | groupNotQueued g =>
    obtain rfl := List.mem_singleton.mp h
    iterate 2 apply contains_append_left
    apply contains_append_right
    apply contains_self

/-- Which of the checks of `admit` an error comes from. -/
def TitoError.check : TitoError I M → Nat
  | .textMembers _ _ => 0
  | .noMembers _ => 1
  | .unhashableMembers _ _ => 2
  | .duplicateMembers _ _ => 3
  | .unhashableId _ => 4
  | .idInQueue _ => 5
  | .membersInQueue _ _ => 6
  | .notAMember _ _ _ => 0
  | .memberNotQueued _ => 0
  | .groupNotQueued _ => 0

variable [DecidableEq I] [DecidableEq M]

namespace PlainQueue

omit [DecidableEq I] in
theorem groupOf_isSome_iff {q : PlainQueue I M} {m : M} :
    (q.groupOf m).isSome = true ↔ ∃ e ∈ q.waiting, m ∈ e.members := by
  rw [groupOf, List.find?_isSome]
  simp only [decide_eq_true_eq]

omit [DecidableEq I] in
theorem groupOf_eq_none_iff {q : PlainQueue I M} {v : Value M} :
    v.toOption.bind q.groupOf = none ↔ ∀ e ∈ q.waiting, ∀ m ∈ e.members, v ≠ .hashable m := by
  cases v with
  | unhashable t => simp [Value.toOption]
  | hashable k =>
    rw [Value.toOption, Option.bind_some, groupOf, List.find?_eq_none]
    refine forall₂_congr fun e _ => ?_
    simp only [decide_eq_true_eq]
    constructor
    · rintro hk m hm hv
      exact hk (Value.hashable.inj hv ▸ hm)
    · exact fun hall hk => hall k hk rfl

omit [DecidableEq M] in
theorem find_eq_none_iff {q : PlainQueue I M} {id : Value I}
    (hids : ∀ e ∈ q.waiting, ∃ i, e.groupId = .hashable i) :
    q.find id = none ↔ ∀ e ∈ q.waiting, e.groupId ≠ id := by
  cases id with
  | unhashable t =>
    refine iff_of_true rfl fun e he hid => ?_
    obtain ⟨i, hi⟩ := hids e he
    cases hi.symm.trans hid
  | hashable i =>
    rw [find, List.find?_eq_none]
    simp only [decide_eq_true_eq]

omit [DecidableEq I] in
/-- The items of `held_by`: each queued member with the id of the group that holds it. -/
theorem heldBy_spec {q : PlainQueue I M} (ms : List M)
    (hids : ∀ e ∈ q.waiting, ∃ i, e.groupId = .hashable i)
    (hms : ∀ m ∈ ms, (q.groupOf m).isSome = true) :
    let held := ms.filterMap fun m =>
      (q.groupOf m).bind fun e => e.groupId.toOption.map fun id => (m, id)
    held.map Prod.fst = ms ∧
      ∀ m i, (m, i) ∈ held → ∃ e ∈ q.waiting, m ∈ e.members ∧ e.groupId = .hashable i := by
  have hof : ∀ m e, q.groupOf m = some e → e ∈ q.waiting ∧ m ∈ e.members := fun m e he =>
    ⟨List.mem_of_find?_eq_some he, by simpa using List.find?_some he⟩
  constructor
  · rw [List.map_filterMap]
    refine (List.filterMap_congr fun m hm => ?_).trans List.filterMap_some
    obtain ⟨e, he⟩ := Option.isSome_iff_exists.mp (hms m hm)
    obtain ⟨i, hi⟩ := hids e (hof m e he).1
    rw [he, Option.bind_some, hi]
    rfl
  · intro m i hmem
    obtain ⟨k, -, hk⟩ := List.mem_filterMap.mp hmem
    obtain ⟨e, he, hk⟩ := Option.bind_eq_some_iff.mp hk
    obtain ⟨j, hj, hk⟩ := Option.map_eq_some_iff.mp hk
    obtain ⟨rfl, rfl⟩ := Prod.mk.inj hk
    refine ⟨e, (hof k e he).1, (hof k e he).2, ?_⟩
    cases hg : e.groupId with
    | unhashable t => rw [hg] at hj; cases hj
    | hashable i => rw [hg] at hj; rw [Option.some.inj hj]

variable {q : PlainQueue I M} {id : Value I} {members : Members M}

theorem refusal_truthful (hids : ∀ e ∈ q.waiting, ∃ i, e.groupId = .hashable i) {e : TitoError I M}
    (h : q.refusal id members = some (.tito e)) : e.Truthful q (.admitGroup id members) := by
  cases members with
  | text t =>
    cases h
    rfl
  | notIterable => cases h
  | iterable vs =>
    by_cases hvs : vs = []
    · subst hvs
      cases h
      rfl
    by_cases hun : ∃ v ∈ vs, isHashable v = false
    · simp only [refusal, hvs, hun, if_false, if_true] at h
      cases h
      refine ⟨vs, rfl, ?_, rfl⟩
      obtain ⟨v, hv, hf⟩ := hun
      exact List.ne_nil_of_mem (List.mem_filter.mpr ⟨hv, by rw [hf]; rfl⟩)
    obtain ⟨ms, hms⟩ := Option.ne_none_iff_exists'.mp (mt hashAll_eq_none.mp hun)
    obtain rfl := hashAll_eq_some.mp hms
    rw [refusal_map_hashable q id (ne_nil_of_hashAll hvs hms)] at h
    by_cases hnd : ms.Nodup
    swap
    · rw [if_pos hnd] at h
      cases h
      obtain ⟨hsub, hnodup, hmem⟩ := duplicatesOf_spec ms
      refine ⟨ms, rfl, ?_, hsub, hnodup, fun m => (hmem m).trans ?_⟩
      swap
      · exact (List.replicate_sublist_iff (n := 2)).symm
      intro hnil
      refine hnd (List.nodup_iff_sublist.mpr fun m hm => ?_)
      have := (hmem m).mpr (List.replicate_sublist_iff.mp hm)
      rw [hnil] at this
      cases this
    rw [if_neg (not_not.mpr hnd)] at h
    cases id with
    | unhashable t =>
      cases h
      exact ⟨rfl, _, rfl⟩
    | hashable i =>
      dsimp only at h
      split at h
      · rename_i hid
        cases h
        exact ⟨⟨_, rfl⟩, hid⟩
      split at h
      · rename_i hq
        cases h
        have hheld := heldBy_spec (ms.filter fun m => (q.groupOf m).isSome) hids
          fun m hm => (List.mem_filter.mp hm).2
        refine ⟨_, ms, rfl, hq, List.filter_sublist, fun m => ?_, hheld⟩
        rw [List.mem_filter, groupOf_isSome_iff]
      · cases h

/-- `admit` does not let a reason pass, and gives the one that it checks first. -/
theorem refusal_of_truthful {e : TitoError I M} (h : e.Truthful q (.admitGroup id members)) :
    ∃ e', q.refusal id members = some (.tito e') ∧ e'.check ≤ e.check := by
  cases e with
  | textMembers id' t =>
    obtain ⟨rfl, rfl⟩ := Op.admitGroup.inj h
    exact ⟨_, rfl, Nat.le_refl _⟩
  | noMembers id' =>
    obtain ⟨rfl, rfl⟩ := Op.admitGroup.inj h
    exact ⟨_, rfl, Nat.le_refl _⟩
  | unhashableMembers id' us =>
    obtain ⟨vs, hop, hne, rfl⟩ := h
    obtain ⟨rfl, rfl⟩ := Op.admitGroup.inj hop
    obtain ⟨u, hu⟩ := List.exists_mem_of_ne_nil _ hne
    obtain ⟨hu, hf⟩ := List.mem_filter.mp hu
    have hvs := List.ne_nil_of_mem hu
    have hun : ∃ v ∈ vs, isHashable v = false := ⟨u, hu, by simpa using hf⟩
    refine ⟨.unhashableMembers id (vs.filter fun v => !isHashable v), ?_, Nat.le_refl 2⟩
    simp only [refusal, hvs, hun, if_false, if_true]
  | duplicateMembers id' ds =>
    obtain ⟨ms, hop, hne, hsub, -, hmem⟩ := h
    obtain ⟨rfl, rfl⟩ := Op.admitGroup.inj hop
    obtain ⟨d, hd⟩ := List.exists_mem_of_ne_nil ds hne
    have hms := List.ne_nil_of_mem (hsub.subset hd)
    have hnd : ¬ ms.Nodup := by
      intro hnd
      cases (List.nodup_iff_sublist.mp hnd) d ((hmem d).mp hd)
    refine ⟨.duplicateMembers id (duplicatesOf ms), ?_, Nat.le_refl 3⟩
    rw [refusal_map_hashable q id hms, if_pos hnd]
  | unhashableId id' =>
    obtain ⟨hid, vs, hop⟩ := h
    obtain ⟨rfl, rfl⟩ := Op.admitGroup.inj hop
    cases id with
    | hashable i => cases hid
    | unhashable t =>
      simp only [refusal]
      split
      · exact ⟨_, rfl, by simp [TitoError.check]⟩
      split
      · exact ⟨_, rfl, by simp [TitoError.check]⟩
      split
      · exact ⟨_, rfl, by simp [TitoError.check]⟩
      · exact ⟨_, rfl, Nat.le_refl _⟩
  | idInQueue i =>
    obtain ⟨⟨vs, hop⟩, hid⟩ := h
    obtain ⟨rfl, rfl⟩ := Op.admitGroup.inj hop
    simp only [refusal]
    split
    · exact ⟨_, rfl, by simp [TitoError.check]⟩
    split
    · exact ⟨_, rfl, by simp [TitoError.check]⟩
    split
    · exact ⟨_, rfl, by simp [TitoError.check]⟩
    · exact ⟨.idInQueue i, rfl, Nat.le_refl 5⟩
  | membersInQueue ms held =>
    obtain ⟨id', given, hop, hne, hsub, hmem, -⟩ := h
    obtain ⟨rfl, rfl⟩ := Op.admitGroup.inj hop
    obtain ⟨m, hm⟩ := List.exists_mem_of_ne_nil ms hne
    rw [refusal_map_hashable q id (List.ne_nil_of_mem (hsub.subset hm))]
    split
    · exact ⟨_, rfl, by simp [TitoError.check]⟩
    cases id with
    | unhashable t => exact ⟨_, rfl, by simp [TitoError.check]⟩
    | hashable i =>
      dsimp only
      split
      · exact ⟨_, rfl, by simp [TitoError.check]⟩
      have hq : given.filter (fun m => (q.groupOf m).isSome) ≠ [] := by
        obtain ⟨hg, hw⟩ := (hmem m).mp hm
        exact List.ne_nil_of_mem (List.mem_filter.mpr ⟨hg, groupOf_isSome_iff.mpr hw⟩)
      exact ⟨.membersInQueue _ _, if_pos hq, Nat.le_refl 6⟩
  | notAMember v id' ms =>
    obtain ⟨k, e, hop, -⟩ := h
    cases hop
  | memberNotQueued v => cases h.1
  | groupNotQueued id' => rcases h.1 with hop | hop <;> cases hop

omit [DecidableEq I] in
theorem groupMarkReady_error_iff {h : Handle} {v : Value M} {e : TitoError I M} :
    (q.groupMarkReady h v).1 = .error (.tito e) ↔
      ∃ g, q.look h = some g ∧ (∀ m ∈ g.members, v ≠ .hashable m) ∧
        e = .notAMember v g.groupId g.members := by
  cases hl : q.look h with
  | none => simp [groupMarkReady, hl]
  | some g =>
    cases v with
    | unhashable t => simp [groupMarkReady, hl, eq_comm]
    | hashable m =>
      by_cases hm : m ∈ g.members
      · simp [groupMarkReady, hl, hm, List.forall_mem_ne]
      · simp [groupMarkReady, hl, hm, List.forall_mem_ne, eq_comm]

theorem step_truthful (hq : q.Valid) (hids : ∀ e ∈ q.waiting, ∃ i, e.groupId = .hashable i)
    {op : Op I M} {e : TitoError I M} (h : (q.step op).1 = .error (.tito e)) :
    e.Truthful q op := by
  cases op with
  | admitGroup id members =>
    cases hr : q.refusal id members with
    | some err =>
      simp only [step, admitGroup, hr, Except.error.injEq] at h
      exact refusal_truthful hids (hr.trans (congrArg some h))
    | none =>
      cases members <;> simp [step, admitGroup, hr] at h
  | markReady v =>
    cases hof : v.toOption.bind q.groupOf with
    | none =>
      simp only [step, markReady, hof] at h
      cases h
      exact ⟨rfl, groupOf_eq_none_iff.mp hof⟩
    | some g =>
      obtain ⟨m, rfl⟩ : ∃ m, v = .hashable m := by
        cases v with
        | unhashable t => cases hof
        | hashable m => exact ⟨m, rfl⟩
      have hm : m ∈ g.members := by simpa using List.find?_some hof
      have hok := hq.groupMarkReady_ok (List.mem_of_find?_eq_some hof) hm
      simp only [step, markReady, hof, hok] at h
      cases h
  | markGroupReady id =>
    cases hf : q.find id with
    | none =>
      simp only [step, markGroupReady, hf] at h
      cases h
      exact ⟨Or.inl rfl, (find_eq_none_iff hids).mp hf⟩
    | some g =>
      simp only [step, markGroupReady, hf] at h
      cases h
  | cancel id =>
    cases hf : q.find id with
    | none =>
      simp only [step, cancel, hf] at h
      cases h
      exact ⟨Or.inr rfl, (find_eq_none_iff hids).mp hf⟩
    | some g =>
      simp only [step, cancel, hf] at h
      cases h
  | groupMarkReady k v =>
    obtain ⟨g, hl, hno, rfl⟩ := groupMarkReady_error_iff.mp h
    exact ⟨k, g, rfl, hl, rfl, rfl, hno⟩
  | groupOf v => cases h
  | clear => cases h
  | peek => cases h
  | release => cases h
  | releaseAll => cases h
  | groups => cases h
  | len => cases h
  | contains v => cases h

theorem step_of_truthful (hids : ∀ e ∈ q.waiting, ∃ i, e.groupId = .hashable i)
    {op : Op I M} {e : TitoError I M} (h : e.Truthful q op) :
    ∃ e', (q.step op).1 = .error (.tito e') ∧ e'.check ≤ e.check := by
  have hadmission : ∀ id members, op = .admitGroup id members →
      ∃ e', (q.step op).1 = .error (.tito e') ∧ e'.check ≤ e.check := by
    rintro id members rfl
    obtain ⟨e', he', hle⟩ := refusal_of_truthful h
    exact ⟨e', by simp only [step, admitGroup, he'], hle⟩
  cases e with
  | textMembers id t => exact hadmission _ _ h
  | noMembers id => exact hadmission _ _ h
  | unhashableMembers id us => exact hadmission _ _ h.choose_spec.1
  | duplicateMembers id ds => exact hadmission _ _ h.choose_spec.1
  | unhashableId id => exact hadmission _ _ h.2.choose_spec
  | idInQueue id => exact hadmission _ _ h.1.choose_spec
  | membersInQueue ms held => exact hadmission _ _ h.choose_spec.choose_spec.1
  | notAMember v id ms =>
    obtain ⟨k, g, rfl, hl, rfl, rfl, hno⟩ := h
    exact ⟨_, groupMarkReady_error_iff.mpr ⟨g, hl, hno, rfl⟩, Nat.le_refl 0⟩
  | memberNotQueued v =>
    obtain ⟨rfl, hno⟩ := h
    refine ⟨.memberNotQueued v, ?_, Nat.le_refl 0⟩
    simp only [step, markReady, groupOf_eq_none_iff.mpr hno]
  | groupNotQueued id =>
    obtain ⟨hop, hno⟩ := h
    have hf := (find_eq_none_iff hids).mpr hno
    refine ⟨.groupNotQueued id, ?_, Nat.le_refl 0⟩
    rcases hop with rfl | rfl
    · simp only [step, markGroupReady, hf]
    · simp only [step, cancel, hf]

end PlainQueue

/-- In every reachable state: what a `TitoError` says is so, names included and none of them left
out, its text shows all that it names, and a call about which there is such a thing to say raises
the error of the first check that finds one. -/
theorem errors_truthful (reprI : Value I → String) (reprM : Value M → String) (strictOrder : Bool)
    (ops : List (Op I M)) (op : Op I M) :
    let w := final step (World.init strictOrder) ops
    (∀ e, (step w op).1 = .error (.tito e) → e.Truthful w.plain op ∧
      ∀ name ∈ e.names reprI reprM, (e.message reprI reprM).contains name = true) ∧
      ∀ e : TitoError I M, e.Truthful w.plain op →
        ∃ e', (step w op).1 = .error (.tito e') ∧ e'.check ≤ e.check := by
  intro w
  have hw : Consistent w := consistent_of_reachable ⟨ops, rfl⟩
  have hids : ∀ e ∈ w.plain.waiting, ∃ i, e.groupId = .hashable i := by
    intro e he
    have hmem : (e.groupId, e.handle) ∈ w.plain.waiting.map fun e => (e.groupId, e.handle) :=
      List.mem_map_of_mem he
    rw [entries_waiting hw.toRegistered] at hmem
    obtain ⟨k, -, hk⟩ := List.mem_map.mp hmem
    exact ⟨k.1, (Prod.mk.inj hk).1.symm⟩
  have hstep : (step w op).1 = (w.plain.step op).1 := congrArg Prod.fst (step_plain hw op)
  rw [hstep]
  refine ⟨fun e he => ⟨?_, fun name hname => ?_⟩, fun e he => ?_⟩
  · exact PlainQueue.step_truthful hw.plain_valid hids he
  · exact e.message_contains reprI reprM hname
  · exact PlainQueue.step_of_truthful hids he

end Tito
