import Tito.Line
import Tito.Tally
import Tito.Together

namespace Tito

open Lib Lib.Effects Lib.Mealy

variable {I M : Type}

/-- What a call marks through the handle `h`. -/
def Op.marks (h : Handle) : Op I M → Option (Value M)
  | .groupMarkReady k member => if k = h then some member else none
  | _ => none

/-- A call, unless it is a mark through the handle `h`. -/
def Op.besides (h : Handle) (op : Op I M) : Option (Op I M) :=
  match op.marks h with
  | none => some op
  | some _ => none

theorem Op.eq_of_marks {h : Handle} {op : Op I M} {v : Value M} (hv : op.marks h = some v) :
    op = .groupMarkReady h v := by
  cases op with
  | groupMarkReady k member =>
    rw [Op.marks] at hv
    split at hv
    · rename_i hk
      rw [hk, Option.some.inj hv]
    · cases hv
  | _ => cases hv

theorem Op.besides_eq_some {h : Handle} {op op' : Op I M} (hop : op.besides h = some op') :
    op' = op ∧ op.marks h = none := by
  rw [Op.besides] at hop
  split at hop
  · rename_i hm
    exact ⟨(Option.some.inj hop).symm, hm⟩
  · cases hop

theorem Op.besides_eq_none {h : Handle} {op : Op I M} (hop : op.besides h = none) :
    ∃ v, op.marks h = some v := by
  rw [Op.besides] at hop
  split at hop
  · cases hop
  · rename_i v hm
    exact ⟨v, hm⟩

theorem marks_besides (h : Handle) (ops : List (Op I M)) :
    (ops.filterMap (Op.besides h)).filterMap (Op.marks h) = [] := by
  rw [List.filterMap_filterMap, List.filterMap_eq_nil_iff]
  intro op _
  cases hop : op.besides h with
  | none => rfl
  | some op' =>
    obtain ⟨rfl, hm⟩ := Op.besides_eq_some hop
    exact hm

/-- Nothing is lost but the group at `h`, which is one object here and another there. -/
def lostAt (h : Handle) (p : Group I M × Group I M) (k : Handle) : Option (Group I M × Group I M) :=
  if k = h then some p else none

theorem lostAt_eq_none {h k : Handle} {p : Group I M × Group I M} :
    lostAt h p k = none ↔ k ≠ h := by
  rw [lostAt]
  split
  · rename_i hk
    exact ⟨fun hn => (nomatch hn), fun hne => absurd hk hne⟩
  · rename_i hk
    exact ⟨fun _ => hk, fun _ => rfl⟩

theorem lostAt_eq_some {h k : Handle} {p q : Group I M × Group I M} :
    lostAt h p k = some q ↔ k = h ∧ p = q := by
  rw [lostAt]
  split
  · rename_i hk
    rw [Option.some.injEq]
    exact ⟨fun hp => ⟨hk, hp⟩, fun hp => hp.2⟩
  · rename_i hk
    exact ⟨fun hn => (nomatch hn), fun hp => absurd hp.1 hk⟩

theorem Shadows.set_lostAt {names : Handle → Option I} {h : Handle} {g g' : Group I M}
    {u : World I M} {os : List (Group I M)} (hs : Shadows (lostAt h (g, g')) names u os)
    (new : Group I M) :
    Shadows (lostAt h (new, g')) names { u with objects := u.objects.set h new } os := by
  obtain ⟨hu, hos⟩ := hs.apart h _ (lostAt_eq_some.mpr ⟨rfl, rfl⟩)
  have hlt : h < u.objects.length := (List.getElem?_eq_some_iff.mp hu).1
  refine ⟨?_, fun k hk => ?_, fun k p hp => ?_, fun k hk => ?_, fun k hk => ?_, fun k hk => ?_⟩
  · rw [List.length_set, hs.length]
  · have hne := lostAt_eq_none.mp hk
    rw [List.getElem?_set_ne (Ne.symm hne)]
    exact hs.object k (lostAt_eq_none.mpr hne)
  · obtain ⟨rfl, rfl⟩ := lostAt_eq_some.mp hp
    exact ⟨List.getElem?_set_self hlt, hos⟩
  · exact lostAt_eq_none.mpr (lostAt_eq_none.mp (hs.mapped k hk))
  · exact lostAt_eq_none.mpr (lostAt_eq_none.mp (hs.indexed k hk))
  · rw [List.length_set] at hk
    obtain ⟨hfree, hname⟩ := hs.fresh k hk
    exact ⟨lostAt_eq_none.mpr (lostAt_eq_none.mp hfree), hname⟩

def unnamed (_ : Handle) : Option I := none

theorem Told.eq {o o' : Outcome I M} (h : Told unnamed o o') : o' = o := by
  cases o with
  | ok a =>
    cases o' with
    | error e => exact h.elim
    | ok a' =>
      rw [show a' = a.named unnamed from h]
      cases a with
      | groups es =>
        have hes : es.map (Entry.named unnamed) = es := List.map_id es
        rw [Answer.named, hes]
      | _ => rfl
  | error e =>
    cases o' with
    | ok a' => exact h.elim
    | error e' =>
      rcases h with he | ⟨⟨k, hk⟩, -⟩
      · rw [he]
      · exact absurd rfl hk

variable [DecidableEq M]

theorem markReady_call {g : Group I M} {v : Value M} {marked : Group.Marked I M}
    (h : g.markReady v = .ok marked) : marked.call = none ∨ marked.call = g.onReady := by
  cases v with
  | unhashable t => cases h
  | hashable m =>
    cases hm : g.ready.get? m with
    | none =>
      rw [markReady_of_none hm] at h
      cases h
    | some b =>
      cases b with
      | true =>
        rw [markReady_of_true hm] at h
        cases h
        exact Or.inl rfl
      | false =>
        rw [markReady_of_false hm] at h
        cases h
        dsimp only
        split
        · exact Or.inr rfl
        · exact Or.inl rfl

variable [DecidableEq I]

/-- The group `g` at `h` has left the queue. -/
structure Departed (w : World I M) (h : Handle) (g : Group I M) : Prop where
  consistent : Consistent w
  object : w.objects[h]? = some g
  gone : h ∉ w.groups.values

namespace Departed

variable {w : World I M} {h : Handle} {g : Group I M} (hd : Departed w h g)

include hd

theorem onReady_eq_none : g.onReady = none := by
  rw [hd.consistent.carried h g hd.object, if_neg hd.gone]

theorem alike : Alike (lostAt h (g, g)) unnamed w w := by
  have hlt : h < w.objects.length := (List.getElem?_eq_some_iff.mp hd.object).1
  refine ⟨w.objects, rfl, rfl, fun k _ => ?_, fun k p hp => ?_, fun k hk => ?_, fun k hk => ?_,
    fun k hk => ⟨lostAt_eq_none.mpr ?_, rfl⟩⟩
  · exact (congrFun Option.map_id _).symm
  · obtain ⟨rfl, rfl⟩ := lostAt_eq_some.mp hp
    exact ⟨hd.object, hd.object⟩
  · refine lostAt_eq_none.mpr ?_
    rintro rfl
    exact hd.gone hk
  · refine lostAt_eq_none.mpr ?_
    rintro rfl
    obtain ⟨s, hs⟩ := Dict.mem_values_iff.mp hk
    exact hd.gone ((hd.consistent.readied s k).mp hs).2.2.1
  · exact Nat.ne_of_gt (Nat.lt_of_lt_of_le hlt hk)

/-- A mark of a group that has left reaches its own object and nothing else. -/
theorem step_mark (v : Value M) : (step w (.groupMarkReady h v)).2 =
    { w with objects := w.objects.set h (markStep g v).2 } := by
  rw [step, attempt, perform, groupMarkReady, markStep]
  simp only [EStateM.run_bind, deref_run hd.object]
  cases hm : g.markReady v with
  | error e =>
    obtain ⟨hlt, hget⟩ := List.getElem?_eq_some_iff.mp hd.object
    simp only [run_throw]
    rw [← hget, List.set_getElem_self]
  | ok marked =>
    have hcall : marked.call = none := by
      rcases markReady_call hm with hc | hc
      · exact hc
      · exact hc.trans hd.onReady_eq_none
    simp only [EStateM.run_bind, store_run, hcall, EStateM.run_pure]

omit hd in
theorem harmless (hw : Consistent w) {op : Op I M} (hop : op.marks h = none)
    (p : Group I M × Group I M) : Harmless (lostAt h p) unnamed w op := by
  cases op with
  | cancel id => exact fun _ _ _ _ => rfl
  | release => exact fun _ _ _ => rfl
  | releaseAll =>
    obtain ⟨hs, w', hr, -⟩ := releaseAllLoop_run _ hw (Nat.le_refl _) []
    exact ⟨_, w', hr, fun _ _ => rfl⟩
  | groupMarkReady k v =>
    refine lostAt_eq_none.mpr fun hk => ?_
    rw [Op.marks, if_pos hk] at hop
    cases hop
  | _ => trivial

theorem next (op : Op I M) : Departed (step w op).2 h
    ((op.marks h).elim g fun v => (markStep g v).2) := by
  have hc := step_consistent hd.consistent op
  cases hm : op.marks h with
  | none =>
    obtain ⟨os, -, hs⟩ := (step_alike hd.alike (harmless hd.consistent hm (g, g))).2
    refine ⟨hc, (hs.apart h _ (lostAt_eq_some.mpr ⟨rfl, rfl⟩)).1, fun hk => ?_⟩
    exact lostAt_eq_none.mp (hs.mapped h hk) rfl
  | some v =>
    obtain rfl := Op.eq_of_marks hm
    have hlt : h < w.objects.length := (List.getElem?_eq_some_iff.mp hd.object).1
    rw [hd.step_mark] at hc ⊢
    exact ⟨hc, List.getElem?_set_self hlt, hd.gone⟩

theorem run (ops : List (Op I M)) :
    Departed (final step w ops) h (final markStep g (ops.filterMap (Op.marks h))) := by
  induction ops generalizing w g with
  | nil => exact hd
  | cons op ops ih =>
    have hnext := ih (hd.next op)
    rw [final_cons]
    cases hm : op.marks h with
    | none =>
      rw [hm] at hnext
      rwa [List.filterMap_cons_none hm]
    | some v =>
      rw [hm] at hnext
      rwa [List.filterMap_cons_some hm]

end Departed

/-- The queue `v` differs from `u` in the group at `h` alone, which has left. -/
def Aside (h : Handle) (v u : World I M) : Prop :=
  ∃ g g', Departed v h g ∧ Alike (lostAt h (g, g')) unnamed v u

/-- The run goes on without the marks through `h` as with them. -/
theorem setting_aside (h : Handle) : Erasure step step (fun _ => Op.besides h) (fun _ _ o => o)
    (fun _ _ => True) (Aside (I := I) (M := M) h) where
  dropped := by
    rintro v u op ⟨g, g', hd, os, rfl, hs⟩ - hop
    obtain ⟨m, hm⟩ := Op.besides_eq_none hop
    have hnext := hd.next op
    obtain rfl := Op.eq_of_marks hm
    refine ⟨_, g', hnext, os, by rw [hd.step_mark], ?_⟩
    rw [hm, hd.step_mark]
    exact hs.set_lostAt _
  answer := by
    rintro v u op op' ⟨g, g', hd, hvu⟩ - hop
    obtain ⟨rfl, hm⟩ := Op.besides_eq_some hop
    exact (step_alike hvu (Departed.harmless hd.consistent hm _)).1.eq
  next := by
    rintro v u op op' ⟨g, g', hd, hvu⟩ - hop
    obtain ⟨rfl, hm⟩ := Op.besides_eq_some hop
    refine ⟨_, g', hd.next op', ?_⟩
    rw [hm]
    exact (step_alike hvu (Departed.harmless hd.consistent hm _)).2

theorem step_handedOut {w : World I M} (hw : Consistent w) (op : Op I M) {e : Entry I M}
    (he : e ∈ handedOut op (step w op).1) : ∃ g, Departed (step w op).2 e.handle g := by
  have hc := step_consistent hw op
  have hcons := step_conserved hw op
  have hnodup := hcons.handles_nodup hw.plain_valid
  have hmem : e.handle ∈ (handedOut op (step w op).1).map Entry.handle := List.mem_map_of_mem he
  have hlt : e.handle < (step w op).2.objects.length := by
    have harrivals : (step w op).2.objects.length =
        w.plain.arrivals + (admitted op (step w op).1).length := hc.counted.trans hcons.counted
    rw [harrivals]
    rcases List.mem_append.mp (hcons.handles.mem_iff.mp (List.mem_append_left _ hmem)) with hk | hk
    · obtain ⟨a, ha, hae⟩ := List.mem_map.mp hk
      exact hae ▸ Nat.lt_add_right _ (hw.plain_valid.handle_lt a ha)
    · exact (List.mem_range'_1.mp hk).2
  refine ⟨_, hc, List.getElem?_eq_getElem hlt, ?_⟩
  rw [← hc.map_handle_waiting]
  exact fun hk => (List.nodup_append.mp hnodup).2.2 _ hmem _ hk rfl

theorem departed_of_handedOut {strictOrder : Bool} {ops : List (Op I M)} {e : Entry I M}
    (he : e ∈ collected step handedOut (World.init strictOrder) ops) :
    ∃ g, Departed (final step (World.init strictOrder) ops) e.handle g := by
  let P (es : List (Entry I M)) (w : World I M) : Prop :=
    Consistent w ∧ ∀ a ∈ es, ∃ g, Departed w a.handle g
  have hP : ∀ es w op, P es w → P (es ++ handedOut op (step w op).1) (step w op).2 := by
    rintro es w op ⟨hw, hes⟩
    refine ⟨step_consistent hw op, fun a ha => ?_⟩
    rcases List.mem_append.mp ha with ha | ha
    · obtain ⟨g, hd⟩ := hes a ha
      exact ⟨_, hd.next op⟩
    · exact step_handedOut hw op ha
  have hinit : P [] (World.init strictOrder) :=
    ⟨init_consistent strictOrder, fun _ ha => nomatch ha⟩
  exact (collected_invariant hP hinit ops).2 e he

/-- Handles of departed groups are inert. Once a group has left, by any departure, the run with
marks through its handle and the run without them stay the same in every field of the queue and in
every other group, and all other calls have the same outcomes; and the group itself is changed by
those marks alone, whatever else is called. -/
theorem departed_inert {strictOrder : Bool} {before : List (Op I M)} {e : Entry I M}
    (hleft : e ∈ collected step handedOut (World.init strictOrder) before)
    (after : List (Op I M)) :
    let w := final step (World.init strictOrder) before
    let h := e.handle
    let v := final step w after
    let u := final step w (after.filterMap (Op.besides h))
    (v = { u with objects := v.objects } ∧ ∀ k, k ≠ h → v.objects[k]? = u.objects[k]?) ∧
    answers step w (after.filterMap (Op.besides h)) =
      observed step (fun _ => Op.besides h) (fun _ _ o => o) w after ∧
    ∃ g, w.objects[h]? = some g ∧ u.objects[h]? = some g ∧
      v.objects[h]? = some (final markStep g (after.filterMap (Op.marks h))) := by
  intro w h v u
  obtain ⟨g, hd⟩ := departed_of_handedOut hleft
  have hrun := (setting_aside h).run (s := w) (t := w) ⟨g, g, hd, hd.alike⟩
    (Along.of_forall (fun _ _ => trivial) w after)
  rw [translated_const] at hrun
  obtain ⟨hanswers, g₁, g₂, hdv, os, hu, hs⟩ := hrun
  have hu : u = { v with objects := os } := hu
  have hkept := (hd.run (after.filterMap (Op.besides h))).object
  rw [marks_besides] at hkept
  refine ⟨⟨?_, fun k hk => ?_⟩, hanswers, g, hd.object, hkept, (hd.run after).object⟩
  · rw [hu]
  · have hk := hs.object k (lostAt_eq_none.mpr hk)
    rw [hu]
    exact (hk.trans (congrFun Option.map_id _)).symm

/-- A group that left half ready is completed through its handle while its id and members wait
again. -/
theorem departed_inert_readmitted :
    let admission : Op Nat Nat :=
      .admitGroup (.hashable 7) (.iterable [.hashable 1, .hashable 2])
    let before := [admission, .markReady (.hashable 1), .cancel (.hashable 7)]
    let after := [admission, .groupMarkReady 0 (.hashable 2), .markReady (.hashable 1), .release]
    let w := final step (World.init false) before
    let v := final step w after
    let u := final step w [admission, .markReady (.hashable 1), .release]
    v = { u with objects := v.objects } ∧ ∀ k, k ≠ 0 → v.objects[k]? = u.objects[k]? := by
  intro admission before after w v u
  have hleft : ⟨0, .hashable 7, [(1, true), (2, false)]⟩ ∈
      collected step handedOut (World.init false) before := by decide
  exact (departed_inert hleft after).1

end Tito
