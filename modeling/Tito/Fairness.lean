import Tito.ReleaseAll
import Tito.Lib.Progress
import Mathlib.Data.Set.Finite.Basic
import Mathlib.Order.Filter.AtTopBot.Basic
import Mathlib.Order.Filter.Finite

namespace Tito

open Lib Lib.Mealy

variable {I M : Type}

/-- The calls that release what they can. -/
def Op.frees : Op I M → Bool
  | .release => true
  | .releaseAll => true
  | _ => false

/-- All members of the group at `h` have been marked. -/
def World.Complete (w : World I M) (h : Handle) : Prop :=
  ∃ g, w.objects[h]? = some g ∧ g.isReady = true

/-- The waiting groups that came before the one at `h`. -/
def World.older (w : World I M) (h : Handle) : List Handle :=
  w.groups.values.filter fun k => decide (k < h)

/-- Nothing that waits holds the group at `h` up. -/
structure Due (w : World I M) (h : Handle) : Prop where
  complete : w.Complete h
  ahead : w.strictOrder = true → ∀ k ∈ w.older h, w.Complete k

theorem World.mem_older {w : World I M} {h k : Handle} :
    k ∈ w.older h ↔ k ∈ w.groups.values ∧ k < h := by
  rw [older, List.mem_filter, decide_eq_true_iff]

variable [DecidableEq I] [DecidableEq M]

theorem Move.complete {w w' : World I M} (hm : Move w w') {k : Handle} (hk : w.Complete k) :
    w'.Complete k := by
  cases hm with
  | @mark h g m hg hm =>
    refine (ready_marked hg hm k).mpr ?_
    split
    · rename_i he
      subst he
      obtain ⟨g', hg', hr⟩ := hk
      obtain rfl := Option.some.inj (hg.symm.trans hg')
      exact absurd hr (by simp [isReady_of_get?_false hm])
    · exact hk
  | @remove id h g hid hg =>
    obtain ⟨g', hg', hr⟩ := hk
    rw [World.Complete, objects_removed, List.getElem?_set]
    by_cases he : h = k
    · subst he
      obtain rfl := Option.some.inj (hg.symm.trans hg')
      exact ⟨g.detached, by simp [(List.getElem?_eq_some_iff.mp hg).1], hr⟩
    · exact ⟨g', by rw [if_neg he, hg'], hr⟩
  | clear =>
    obtain ⟨g, hg, hr⟩ := hk
    exact ⟨g.detached, by rw [World.cleared, List.getElem?_map, hg]; rfl, hr⟩
  | pop => exact hk

theorem Moves.complete {w w' : World I M} (h : Moves w w') {k : Handle} (hk : w.Complete k) :
    w'.Complete k := by
  induction h with
  | refl => exact hk
  | tail _ hm ih => exact hm.complete ih

theorem Evolves.complete {op : Op I M} {w w' : World I M} (h : Evolves op w w') {k : Handle}
    (hk : w.Complete k) : w'.Complete k := by
  cases op with
  | admitGroup =>
    rcases h with rfl | ⟨_, _, _, _⟩
    · exact hk
    · obtain ⟨g, hg, hr⟩ := hk
      exact ⟨g, Search.getElem?_concat_eq_some.mpr (Or.inl hg), hr⟩
  | _ => exact Moves.complete h hk

theorem step_complete {w : World I M} (hw : Consistent w) (op : Op I M) {k : Handle}
    (hk : w.Complete k) : (step w op).2.Complete k :=
  (step_simulated hw op).evolves.complete hk

theorem step_waiting {w : World I M} (hw : Consistent w) (op : Op I M) {k : Handle}
    (hk : k ∈ (step w op).2.groups.values) : k ∈ w.groups.values ∨ w.sequence ≤ k := by
  have hperm := (step_conserved hw op).handles
  rw [(step_consistent hw op).map_handle_waiting, hw.map_handle_waiting] at hperm
  rcases List.mem_append.mp (hperm.mem_iff.mp (List.mem_append_right _ hk)) with hk | hk
  · exact Or.inl hk
  · exact Or.inr (List.mem_range'_1.mp hk).1

theorem lt_sequence_step {w : World I M} (hw : Consistent w) (op : Op I M) {k : Handle}
    (hk : k < w.sequence) : k < (step w op).2.sequence :=
  (Nat.lt_add_right _ hk).trans_eq (step_conserved hw op).counted.symm

theorem step_older {w : World I M} (hw : Consistent w) (op : Op I M) {h : Handle}
    (hh : h ∈ w.groups.values) : (step w op).2.older h ⊆ w.older h := by
  intro k hk
  obtain ⟨hk, hlt⟩ := World.mem_older.mp hk
  have hsequence := hw.lt_sequence hh
  refine World.mem_older.mpr ⟨(step_waiting hw op hk).resolve_right ?_, hlt⟩
  exact Nat.not_le_of_lt (hlt.trans hsequence)

theorem Due.step {w : World I M} (hw : Consistent w) {h : Handle} (hu : Due w h)
    (hh : h ∈ w.groups.values) (op : Op I M) : Due (step w op).2 h where
  complete := step_complete hw op hu.complete
  ahead := by
    intro hs k hk
    have hpolicy : w.strictOrder = true := (step_conserved hw op).policy.symm.trans hs
    exact step_complete hw op (hu.ahead hpolicy k (step_older hw op hh hk))

omit [DecidableEq I] [DecidableEq M] in
theorem ready_of_complete {w : World I M} {e : Entry I M} (he : e ∈ w.plain.waiting)
    (hc : w.Complete e.handle) : e.ready = true := by
  obtain ⟨g, hg, hge⟩ := World.look_eq_some.mp (World.mem_waiting.mp he).2
  obtain ⟨g', hg', hr⟩ := hc
  obtain rfl := Option.some.inj (hg.symm.trans hg')
  rw [← hge, g.ready_entry, hr]

/-- Where nothing holds a group up, it is shown, or an older one is. -/
theorem Due.peek {w : World I M} (hw : Consistent w) {h : Handle} (hu : Due w h)
    (hh : h ∈ w.groups.values) : ∃ e, w.plain.peek = some e ∧ e.handle ≤ h := by
  obtain ⟨e, he, rfl⟩ : ∃ e ∈ w.plain.waiting, e.handle = h := by
    rw [← hw.map_handle_waiting] at hh
    exact List.mem_map.mp hh
  have hready := ready_of_complete he hu.complete
  have hordered := hw.ordered_waiting
  cases hs : w.strictOrder with
  | true =>
    obtain ⟨a, rest, hl⟩ := List.exists_cons_of_ne_nil (List.ne_nil_of_mem he)
    have ha : a ∈ w.plain.waiting := hl ▸ List.mem_cons_self
    have hle : a.handle ≤ e.handle := by
      rw [hl] at he hordered
      rcases List.mem_cons.mp he with rfl | he
      · exact Nat.le_refl _
      · exact Nat.le_of_lt ((List.pairwise_cons.mp hordered).1 e he)
    have har : a.ready = true := by
      rcases Nat.lt_or_eq_of_le hle with hlt | heq
      · exact ready_of_complete ha
          (hu.ahead hs _ (World.mem_older.mpr ⟨(World.mem_waiting.mp ha).1, hlt⟩))
      · exact ready_of_complete ha (heq ▸ hu.complete)
    refine ⟨a, ?_, hle⟩
    rw [PlainQueue.peek, show w.plain.strictOrder = true from hs, hl]
    simp [har]
  | false =>
    have hpeek : w.plain.peek = w.plain.waiting.find? Entry.ready := by
      rw [PlainQueue.peek, show w.plain.strictOrder = false from hs]
      rfl
    rw [hpeek]
    obtain ⟨a, ha⟩ := Option.isSome_iff_exists.mp (List.find?_isSome.mpr ⟨e, he, hready⟩)
    obtain ⟨-, before, after, hl, hbefore⟩ := List.find?_eq_some_iff_append.mp ha
    refine ⟨a, ha, ?_⟩
    rw [hl, List.pairwise_append, List.pairwise_cons] at hordered
    rw [hl, List.mem_append, List.mem_cons] at he
    rcases he with he | rfl | he
    · exact absurd hready (by simpa using hbefore e he)
    · exact Nat.le_refl _
    · exact Nat.le_of_lt (hordered.2.1.1 e he)

theorem values_release {w : World I M} (hw : Consistent w) {e : Entry I M}
    (he : w.plain.peek = some e) :
    (step w .release).2.groups.values = w.groups.values.filter fun k => decide (k ≠ e.handle) := by
  have hplain : (step w .release).2.plain = w.plain.remove e := by
    have hstep := congrArg Prod.snd (step_plain hw .release)
    rwa [PlainQueue.step, he] at hstep
  rw [← (step_consistent hw .release).map_handle_waiting, ← hw.map_handle_waiting, hplain,
    PlainQueue.remove, List.filter_map]
  rfl

theorem Due.not_mem_releaseAll {w : World I M} (hw : Consistent w) {h : Handle}
    (hu : Due w h) (hh : h ∈ w.groups.values) :
    h ∉ (Tito.step w .releaseAll).2.groups.values := by
  intro hleft
  have hw' := step_consistent hw .releaseAll
  obtain ⟨e, he, -⟩ := (hu.step hw hh .releaseAll).peek hw' hleft
  have hnone := (hw.plain_valid.releaseUpTo_eq (Nat.le_refl w.plain.waiting.length)).2.2
  rw [show (Tito.step w .releaseAll).2.plain = _ from congrArg Prod.snd (step_plain hw .releaseAll)]
    at he
  exact nomatch hnone.symm.trans he

theorem length_older_le {w : World I M} (hw : Consistent w) (op : Op I M) {h : Handle}
    (hh : h ∈ w.groups.values) : ((step w op).2.older h).length ≤ (w.older h).length := by
  have hnodup : ((step w op).2.older h).Nodup := (step_consistent hw op).values_nodup.filter _
  exact (List.subperm_of_subset hnodup (step_older hw op hh)).length_le

theorem Due.release {w : World I M} (hw : Consistent w) {h : Handle} (hu : Due w h)
    (hh : h ∈ w.groups.values) : h ∉ (Tito.step w .release).2.groups.values ∨
      ((Tito.step w .release).2.older h).length < (w.older h).length := by
  obtain ⟨e, he, hle⟩ := hu.peek hw hh
  rw [World.older, values_release hw he]
  rcases Nat.lt_or_eq_of_le hle with hlt | rfl
  · right
    rw [List.filter_comm]
    refine List.length_filter_lt_length_iff_exists.mpr ⟨e.handle, ?_, by simp⟩
    exact World.mem_older.mpr ⟨(World.mem_waiting.mp (PlainQueue.peek_mem he).1).1, hlt⟩
  · left
    simp

/-- Releases bring the departure of a group nearer that nothing holds up. -/
theorem approaches_departure (h : Handle) :
    Approaches (step (I := I) (M := M)) Op.frees (fun w => (w.older h).length)
      (fun w => Consistent w ∧ h ∈ w.groups.values ∧ Due w h)
      (fun w => Consistent w ∧ h < w.sequence ∧ h ∉ w.groups.values) where
  lasts := by
    rintro w op ⟨hw, hh, hu⟩
    have hw' := step_consistent hw op
    by_cases hh' : h ∈ (step w op).2.groups.values
    · exact Or.inl ⟨⟨hw', hh', hu.step hw hh op⟩, length_older_le hw op hh⟩
    · have hcounted := (step_conserved hw op).counted
      have hlt := hw.lt_sequence hh
      exact Or.inr ⟨hw', (Nat.lt_add_right _ hlt).trans_eq hcounted.symm, hh'⟩
  nearer := by
    rintro w op ⟨hw, hh, hu⟩ hop
    have hlt : h < (step w op).2.sequence := lt_sequence_step hw op (hw.lt_sequence hh)
    cases op with
    | release => exact (hu.release hw hh).imp_left fun hout => ⟨step_consistent hw _, hlt, hout⟩
    | releaseAll => exact Or.inl ⟨step_consistent hw _, hlt, hu.not_mem_releaseAll hw hh⟩
    | _ => cases hop
  stays := by
    rintro w op ⟨hw, hlt, hout⟩
    refine ⟨step_consistent hw op, lt_sequence_step hw op hlt, fun hh => ?_⟩
    rcases step_waiting hw op hh with hh | hle
    · exact hout hh
    · exact absurd hle (Nat.not_le_of_lt hlt)

theorem Due.overtaken {w : World I M} (hw : Consistent w) {h : Handle} (hu : Due w h)
    (hh : h ∈ w.groups.values) {op : Op I M} (hh' : h ∈ (Tito.step w op).2.groups.values) :
    ∀ e ∈ released op (Tito.step w op).1, e.handle < h := by
  intro e he
  cases op with
  | release =>
    obtain ⟨a, ha, hle⟩ := hu.peek hw hh
    have hanswer : (Tito.step w .release).1 = PlainQueue.shown w.plain.peek :=
      congrArg Prod.fst (step_plain hw .release)
    rw [hanswer, ha] at he
    obtain rfl := List.mem_singleton.mp he
    rw [values_release hw ha, List.mem_filter, decide_eq_true_iff] at hh'
    exact Nat.lt_of_le_of_ne hle (Ne.symm hh'.2)
  | releaseAll => exact absurd hh' (hu.not_mem_releaseAll hw hh)
  | _ => cases he

/-- A complete group of a relaxed queue waits for its elders only, and a complete group of a strict
queue that has only complete ones ahead of it likewise: it has left after as many calls of `release`
or `release_all` as groups were ahead of it, and one more, and as long as it waits no younger group
is released. -/
theorem departs_in_turn (strictOrder : Bool) (earlier later : List (Op I M)) (h : Handle) :
    let w := final step (World.init strictOrder) earlier
    h ∈ w.groups.values → Due w h →
      ((w.older h).length < later.countP Op.frees → h ∉ (final step w later).groups.values) ∧
      (h ∈ (final step w later).groups.values →
        ∀ e ∈ collected step released w later, e.handle < h) := by
  intro w hh hu
  have hw : Consistent w := consistent_of_reachable ⟨earlier, rfl⟩
  have happ := approaches_departure (I := I) (M := M) h
  refine ⟨fun hcount => (happ.within ⟨hw, hh, hu⟩ hcount).2.2, fun hleft => ?_⟩
  clear_value w
  induction later generalizing w with
  | nil => exact fun e he => nomatch he
  | cons op later ih =>
    rcases happ.lasts w op ⟨hw, hh, hu⟩ with ⟨⟨hw', hh', hu'⟩, -⟩ | hgone
    · intro e he
      rcases List.mem_append.mp he with he | he
      · exact hu.overtaken hw hh hh' e he
      · exact ih _ hh' hu' hw' hleft e he
    · exact absurd hleft (invariant happ.stays hgone later).2.2

/-- Two groups wait and the younger one is complete: two releases are enough for it to leave. -/
theorem departs_in_turn_younger :
    1 ∉ (final step (final step (World.init false : World Nat Nat)
      [.admitGroup (.hashable 7) (.iterable [.hashable 1]),
        .admitGroup (.hashable 8) (.iterable [.hashable 2]), .markReady (.hashable 2)])
      [.release, .release]).groups.values :=
  (departs_in_turn false
    [.admitGroup (.hashable 7) (.iterable [.hashable 1]),
      .admitGroup (.hashable 8) (.iterable [.hashable 2]), .markReady (.hashable 2)]
    [.release, .release] 1 (by decide) ⟨⟨_, rfl, by decide⟩, fun hs => absurd hs (by decide)⟩).1
    (by decide)

/-- The group at `k` was admitted, and it is complete or has left. -/
structure Finished (w : World I M) (k : Handle) : Prop where
  consistent : Consistent w
  admitted : k < w.sequence
  complete : k ∈ w.groups.values → w.Complete k

theorem Finished.step {w : World I M} {k : Handle} (h : Finished w k) (op : Op I M) :
    Finished (step w op).2 k where
  consistent := step_consistent h.consistent op
  admitted := lt_sequence_step h.consistent op h.admitted
  complete := by
    intro hk
    have hwaited := (step_waiting h.consistent op hk).resolve_right (Nat.not_le_of_lt h.admitted)
    exact step_complete h.consistent op (h.complete hwaited)

section

variable {strictOrder : Bool} {ops : Nat → Op I M}

theorem states_consistent (n : Nat) : Consistent (states step (World.init strictOrder) ops n) :=
  consistent_of_reachable ⟨_, (states_eq_final n).symm⟩

theorem states_strictOrder (n : Nat) :
    (states step (World.init strictOrder) ops n).strictOrder = strictOrder := by
  rw [states_eq_final]
  exact final_strictOrder strictOrder _

theorem finished_eventually {n m : Nat} (hnm : n ≤ m) {k : Handle}
    (hn : k ∈ (states step (World.init strictOrder) ops n).groups.values)
    (hm : k ∈ (states step (World.init strictOrder) ops m).groups.values →
      (states step (World.init strictOrder) ops m).Complete k) :
    ∀ᶠ i in Filter.atTop, Finished (states step (World.init strictOrder) ops i) k := by
  have hlt : k < (states step (World.init strictOrder) ops m).sequence := by
    have hadmitted : ∀ (u : World I M) op, Consistent u ∧ k < u.sequence →
        Consistent (step u op).2 ∧ k < (step u op).2.sequence :=
      fun u op hu => ⟨step_consistent hu.1 op, lt_sequence_step hu.1 op hu.2⟩
    have hw : Consistent (states step (World.init strictOrder) ops n) := states_consistent n
    exact (states_keep hadmitted hnm ⟨hw, hw.lt_sequence hn⟩).2
  filter_upwards [Filter.eventually_ge_atTop m] with i hi
  have hfinished : Finished (states step (World.init strictOrder) ops m) k :=
    ⟨states_consistent m, hlt, hm⟩
  exact states_keep (P := fun w => Finished w k) (fun _ op h => h.step op) hi hfinished

end

/-- Where the groups that hold each other up are all completed in the end, or withdrawn, endless
releases let every one of them go: no group waits for ever. -/
theorem endless_releases_free_all (strictOrder : Bool) (ops : Nat → Op I M)
    (hreleases : ∀ n, ∃ m, n ≤ m ∧ (ops m).frees = true) (n : Nat) (h : Handle) :
    let w := states step (World.init strictOrder) ops
    (∀ k ∈ (w n).groups.values, k = h ∨ strictOrder = true ∧ k < h →
      ∃ m, n ≤ m ∧ (k ∈ (w m).groups.values → (w m).Complete k)) →
    ∃ m, n ≤ m ∧ h ∉ (w m).groups.values := by
  intro w hmarked
  have hconsistent : ∀ m, Consistent (w m) := states_consistent
  by_cases hn : h ∈ (w n).groups.values
  · have hall : ∀ᶠ m in Filter.atTop, ∀ k ∈ (w n).groups.values,
        (k = h ∨ strictOrder = true ∧ k < h) → Finished (w m) k := by
      refine (Filter.eventually_all_finite (List.finite_toSet (w n).groups.values)).mpr fun k hk => ?_
      by_cases hin : k = h ∨ strictOrder = true ∧ k < h
      · obtain ⟨m, hm, hdone⟩ := hmarked k hk hin
        exact (finished_eventually hm hk hdone).mono fun _ hf _ => hf
      · exact Filter.Eventually.of_forall fun _ hin' => absurd hin' hin
    obtain ⟨m, hfinished, hnm⟩ := (hall.and (Filter.eventually_ge_atTop n)).exists
    by_cases hm : h ∈ (w m).groups.values
    · have hahead : ∀ k ∈ (w m).older h, k ∈ (w n).groups.values := by
        intro k hk
        obtain ⟨hk, hlt⟩ := World.mem_older.mp hk
        by_contra hout
        have hadmitted := hlt.trans ((hconsistent n).lt_sequence hn)
        have hgone := states_keep (approaches_departure k).stays hnm
          ⟨hconsistent n, hadmitted, hout⟩
        exact hgone.2.2 hk
      have hdue : Due (w m) h := by
        refine ⟨(hfinished h hn (Or.inl rfl)).complete hm, fun hs k hk => ?_⟩
        have hstrict : strictOrder = true := (states_strictOrder m).symm.trans hs
        obtain ⟨hkm, hlt⟩ := World.mem_older.mp hk
        exact (hfinished k (hahead k hk) (Or.inr ⟨hstrict, hlt⟩)).complete hkm
      obtain ⟨i, hi, hgone⟩ := (approaches_departure h).eventually hreleases
        ⟨hconsistent m, hm, hdue⟩
      exact ⟨i, Nat.le_trans hnm hi, hgone.2.2⟩
    · exact ⟨m, hnm, hm⟩
  · exact ⟨n, Nat.le_refl n, hn⟩

/-- The younger group is complete first, and a release gives nothing. Then the head of the line is
completed, and releases go on for ever. -/
theorem endless_releases_free_all_behind :
    let ops : Nat → Op Nat Nat := fun
      | 0 => .admitGroup (.hashable 7) (.iterable [.hashable 1])
      | 1 => .admitGroup (.hashable 8) (.iterable [.hashable 2, .hashable 3])
      | 2 => .markGroupReady (.hashable 8)
      | 3 => .release
      | 4 => .markReady (.hashable 1)
      | _ => .release
    let w := states step (World.init true) ops
    (step (w 3) (ops 3)).1 = .ok .none ∧ (w 4).groups.values = [0, 1] ∧
      ∃ m, 3 ≤ m ∧ 1 ∉ (w m).groups.values := by
  intro ops w
  have hhead : (w 5).objects[0]?.any Group.isReady = true := by decide
  have hbehind : (w 5).objects[1]?.any Group.isReady = true := by decide
  have hreleases : ∀ n, ∃ m, n ≤ m ∧ (ops m).frees = true :=
    fun n => ⟨n + 5, Nat.le_add_right n 5, rfl⟩
  refine ⟨by decide, by decide, endless_releases_free_all true ops hreleases 3 1 ?_⟩
  intro k hk _
  refine ⟨5, by decide, fun _ => ?_⟩
  have hk' : k ∈ [0, 1] := hk
  rcases List.mem_pair.mp hk' with rfl | rfl
  · exact (Option.any_eq_true _ _).mp hhead
  · exact (Option.any_eq_true _ _).mp hbehind

theorem due_final {w : World I M} (hw : Consistent w) {h : Handle} (hu : Due w h)
    (hh : h ∈ w.groups.values) {ops : List (Op I M)} (hh' : h ∈ (final step w ops).groups.values) :
    Due (final step w ops) h ∧ (final step w ops).older h ⊆ w.older h := by
  induction ops generalizing w with
  | nil => exact ⟨hu, List.Subset.refl _⟩
  | cons op ops ih =>
    have hw' := step_consistent hw op
    by_cases hstay : h ∈ (step w op).2.groups.values
    · obtain ⟨hu', holder⟩ := ih hw' (hu.step hw hh op) hstay hh'
      exact ⟨hu', List.Subset.trans holder (step_older hw op hh)⟩
    · have hadmitted := lt_sequence_step hw op (hw.lt_sequence hh)
      exact absurd hh' (invariant (approaches_departure h).stays ⟨hw', hadmitted, hstay⟩ ops).2.2

omit [DecidableEq I] [DecidableEq M] in
theorem complete_of_ready {w : World I M} {e : Entry I M} (he : e ∈ w.plain.waiting)
    (hr : e.ready = true) : w.Complete e.handle := by
  obtain ⟨g, hg, hge⟩ := World.look_eq_some.mp (World.mem_waiting.mp he).2
  exact ⟨g, hg, by rw [← g.ready_entry e.handle, hge, hr]⟩

theorem Due.of_peek {w : World I M} (hw : Consistent w) {e : Entry I M}
    (he : w.plain.peek = some e) :
    Due w e.handle ∧ (w.strictOrder = true → w.older e.handle = []) := by
  obtain ⟨hmem, hready⟩ := PlainQueue.peek_mem he
  have holder : w.strictOrder = true → w.older e.handle = [] := by
    intro hs
    obtain ⟨rest, hl⟩ := PlainQueue.peek_strict hs he
    have hordered := hw.ordered_waiting
    rw [World.older, ← hw.map_handle_waiting, List.filter_eq_nil_iff]
    rw [hl] at hordered
    intro k hk
    obtain ⟨a, ha, rfl⟩ := List.mem_map.mp (hl ▸ hk)
    rw [decide_eq_true_iff, Nat.not_lt]
    rcases List.mem_cons.mp ha with rfl | ha
    · exact Nat.le_refl _
    · exact Nat.le_of_lt ((List.pairwise_cons.mp hordered).1 a ha)
  refine ⟨⟨complete_of_ready hmem hready, fun hs k hk => ?_⟩, holder⟩
  rw [holder hs] at hk
  cases hk

/-- What `peek` shows is not overtaken by a younger group. As long as the group that it showed
waits, whatever else goes on, a strict queue goes on showing it, and a relaxed one shows it or an
older group. -/
theorem peeked_keeps_its_turn (strictOrder : Bool) (earlier later : List (Op I M))
    (e : Entry I M) :
    let w := final step (World.init strictOrder) earlier
    let w' := final step (step w .peek).2 later
    (step w .peek).1 = .ok (.group e) → e.handle ∈ w'.groups.values →
      ∃ e', (step w' .peek).1 = .ok (.group e') ∧ e'.handle ≤ e.handle ∧
        (strictOrder = true → e'.handle = e.handle) := by
  intro w w' hpeek hwaits
  have hw : Consistent w := consistent_of_reachable ⟨earlier, rfl⟩
  have hshown : ∀ {u : World I M}, Consistent u → (step u .peek).1 = PlainQueue.shown u.plain.peek :=
    fun hu => congrArg Prod.fst (step_plain hu .peek)
  have he : w.plain.peek = some e := by
    rw [hshown hw] at hpeek
    cases hp : w.plain.peek with
    | none => rw [hp] at hpeek; cases hpeek
    | some a => rw [hp] at hpeek; cases hpeek; rfl
  obtain ⟨hu, holder⟩ := Due.of_peek hw he
  have hmem : e.handle ∈ w.groups.values :=
    (World.mem_waiting.mp (PlainQueue.peek_mem he).1).1
  have hwaits' : e.handle ∈ (final step w (.peek :: later)).groups.values := hwaits
  obtain ⟨hu', holder'⟩ := due_final hw hu hmem hwaits'
  have hw' : Consistent w' := invariant (P := Consistent)
    (fun _ op hw => step_consistent hw op) hw (.peek :: later)
  obtain ⟨a, ha, hle⟩ := hu'.peek hw' hwaits
  refine ⟨a, by rw [hshown hw', ha]; rfl, hle, fun hs => ?_⟩
  have hs' : w.strictOrder = true := (final_strictOrder strictOrder earlier).trans hs
  refine (Nat.lt_or_eq_of_le hle).resolve_left fun hlt => ?_
  have hold : a.handle ∈ w.older e.handle := holder' (World.mem_older.mpr
    ⟨(World.mem_waiting.mp (PlainQueue.peek_mem ha).1).1, hlt⟩)
  rw [holder hs'] at hold
  cases hold

/-- A strict queue shows its only group, then another is admitted and completed. -/
theorem peeked_keeps_its_turn_strict :
    let w : World Nat Nat := final step (World.init true)
      [.admitGroup (.hashable 7) (.iterable [.hashable 1]), .markReady (.hashable 1)]
    let w' := final step (step w .peek).2
      [.admitGroup (.hashable 8) (.iterable [.hashable 2]), .markReady (.hashable 2)]
    ∃ e', (step w' .peek).1 = .ok (.group e') ∧ e'.handle ≤ 0 ∧ (true = true → e'.handle = 0) :=
  peeked_keeps_its_turn true
    [.admitGroup (.hashable 7) (.iterable [.hashable 1]), .markReady (.hashable 1)]
    [.admitGroup (.hashable 8) (.iterable [.hashable 2]), .markReady (.hashable 2)]
    ⟨0, .hashable 7, [(1, true)]⟩ (by decide) (by decide)

end Tito
