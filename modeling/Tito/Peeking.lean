import Tito.Departure

namespace Tito

open Lib Lib.Heapq Lib.LazyHeap Lib.Mealy Lib.Search

variable {I M : Type} [DecidableEq I] [DecidableEq M]

/-- The loop of `peek` is lazy deletion: it drops stale numbers and shows what surfaces. -/
theorem peekLoop_spec (w : World I M) :
    (∃ stale : List Nat, peekLoop w =
      ((dropStale w.readyGroups.contains w.readyHeap).head?.bind w.readyGroups.get?,
        { w with
          readyHeap := dropStale w.readyGroups.contains w.readyHeap
          trace := w.trace ++ stale.map .popStale })) ∧ Moves w (peekLoop w).2 := by
  induction w using peekLoop.induct with
  | case1 w hw =>
    have hd : dropStale w.readyGroups.contains w.readyHeap = w.readyHeap := by
      rw [hw, dropStale]
    have hh : w.readyHeap.head? = none := by rw [hw]; rfl
    exact ⟨⟨[], by simp [peekLoop_nil hw, hd, hh]⟩, by rw [peekLoop_nil hw]⟩
  | case2 w top t hw g hg =>
    have hl : w.readyGroups.contains top = true :=
      Dict.contains_iff.mpr (Dict.mem_keys_of_get? hg)
    have hd : dropStale w.readyGroups.contains w.readyHeap = w.readyHeap := by
      rw [hw, dropStale, if_pos hl]
    have hh : w.readyHeap.head? = some top := by rw [hw]; rfl
    exact ⟨⟨[], by simp [peekLoop_live hw hg, hd, hh, hg]⟩, by rw [peekLoop_live hw hg]⟩
  | case3 w top t hw hg ih =>
    have hl : ¬ w.readyGroups.contains top = true := by
      rw [Dict.contains_iff]
      exact Dict.get?_eq_none_iff.mp hg
    obtain ⟨⟨stale, hs⟩, hmv⟩ := ih
    refine ⟨⟨top :: stale, ?_⟩, by rw [peekLoop_stale hw hg]; exact .head (.pop hw hg) hmv⟩
    have hd : dropStale w.readyGroups.contains w.readyHeap =
        dropStale w.readyGroups.contains (heappop w.readyHeap) := by
      rw [hw, dropStale, if_neg hl]
    rw [peekLoop_stale hw hg, hs, hd]
    simp [World.wrote]

theorem popped_consistent {w : World I M} (hw : Consistent w) {top : Nat} {rest : List Nat}
    (hh : w.readyHeap = top :: rest) (hs : w.readyGroups.get? top = none) :
    Consistent (w.popped top) := by
  have hp : (heappop w.readyHeap).Perm rest := by
    rw [hh]
    exact heappop_perm top rest
  refine { hw with
    heap := heappop_isHeap hw.heap, heap_nodup := ?_, heap_holds := ?_, heap_stale := ?_,
    heap_strict := ?_ }
  · have hnd := hw.heap_nodup
    rw [hh] at hnd
    exact hp.nodup_iff.mpr (List.nodup_cons.mp hnd).2
  · intro s hk
    have hm := hw.heap_holds s hk
    rw [hh] at hm
    refine hp.mem_iff.mpr (List.mem_of_ne_of_mem (fun he => ?_) hm)
    exact Dict.get?_eq_none_iff.mp hs (he ▸ hk)
  · intro s hm
    refine hw.heap_stale s ?_
    rw [hh]
    exact List.mem_cons_of_mem top (hp.mem_iff.mp hm)
  · intro hstrict
    have hn := hw.heap_strict hstrict
    rw [hh] at hn
    cases hn

theorem Move.consistent {w w' : World I M} (h : Move w w') (hw : Consistent w) :
    Consistent w' := by
  cases h with
  | mark hg hm => exact marked_consistent hw hg hm
  | remove hid hg => exact removed_consistent hw hid hg
  | clear => exact cleared_consistent hw
  | pop hh hs => exact popped_consistent hw hh hs

theorem Moves.consistent {w w' : World I M} (h : Moves w w') (hw : Consistent w) :
    Consistent w' := by
  induction h with
  | refl => exact hw
  | tail _ hm ih => exact hm.consistent ih

theorem head_dropStale {w : World I M} (hw : Consistent w) (hs : w.strictOrder = false) :
    w.plain.peek = ((dropStale w.readyGroups.contains w.readyHeap).head?.bind
      w.readyGroups.get?).bind w.look := by
  have hp : w.plain.peek = w.plain.waiting.find? Entry.ready := by
    rw [PlainQueue.peek, show w.plain.strictOrder = false from hs]
    rfl
  have hready : ∀ e ∈ w.plain.waiting, e.ready = true →
      w.readyGroups.get? e.handle = some e.handle := by
    intro e he hr
    obtain ⟨hh, hl⟩ := World.mem_waiting.mp he
    obtain ⟨g, hg, hge⟩ := World.look_eq_some.mp hl
    refine (hw.readied _ _).mpr ⟨hs, rfl, hh, g, hg, ?_⟩
    rw [← hr, ← g.ready_entry e.handle, hge]
  rw [hp]
  cases hd : dropStale w.readyGroups.contains w.readyHeap with
  | nil =>
    refine List.find?_eq_none.mpr fun e he hr => ?_
    have hk := Dict.mem_keys_of_get? (hready e he hr)
    exact absurd (dropStale_eq_nil hd _ (hw.heap_holds _ hk))
      (Bool.not_eq_false _ ▸ Dict.contains_iff.mpr hk)
  | cons top t =>
    obtain ⟨h, hh⟩ := Dict.mem_keys_iff.mp (Dict.contains_iff.mp (dropStale_cons_live hd))
    obtain ⟨_, rfl, hwait, g, hg, hr⟩ := (hw.readied top h).mp hh
    have hl : w.look top = some (g.entry top) := World.look_eq_some.mpr ⟨g, hg, rfl⟩
    rw [List.head?_cons, Option.bind_some, hh, Option.bind_some, hl]
    refine find?_eq_some_of_least Entry.handle hw.ordered_waiting
      (World.mem_waiting.mpr ⟨hwait, hl⟩) (by rw [g.ready_entry, hr]) fun e he hre => ?_
    have hk := Dict.mem_keys_of_get? (hready e he hre)
    exact dropStale_cons_least hw.heap hd _ (hw.heap_holds _ hk) (Dict.contains_iff.mpr hk)

theorem head_strict {w : World I M} (hw : Registered w) (hs : w.strictOrder = true) :
    w.plain.peek = (w.groups.values.head?.bind w.look).filter Entry.ready := by
  have hp : w.plain.peek = w.plain.waiting.head?.filter Entry.ready := by
    rw [PlainQueue.peek, show w.plain.strictOrder = true from hs]
    rfl
  rw [hp, World.plain]
  dsimp only
  cases hv : w.groups.values with
  | nil => rfl
  | cons h t =>
    obtain ⟨e, he⟩ := hw.look_waiting (hv ▸ List.mem_cons_self)
    rw [List.filterMap_cons_some he, List.head?_cons, List.head?_cons, Option.bind_some, he]

/-- A `peek` shows what the reference queue shows; at most it tidies the heap. -/
theorem peek_run {w : World I M} (hw : Consistent w) :
    ∃ o w', peek.run w = .ok o w' ∧ Consistent w' ∧ w'.plain = w.plain ∧
      (∀ k, w'.look k = w.look k) ∧ w.plain.peek = o.bind w.look ∧
      (∀ h ∈ o, h ∈ w'.groups.values) ∧ Moves w w' := by
  cases hs : w.strictOrder with
  | true =>
    have hp := head_strict hw.toRegistered hs
    cases hv : w.groups.values with
    | nil =>
      rw [hv] at hp
      exact ⟨none, w, by simp [peek, hs, hv], hw, rfl, fun _ => rfl, hp, by simp, .refl⟩
    | cons h t =>
      have hwait : h ∈ w.groups.values := hv ▸ List.mem_cons_self
      obtain ⟨_, g, _, hg, _⟩ := hw.waiting hwait
      have hl : w.look h = some (g.entry h) := World.look_eq_some.mpr ⟨g, hg, rfl⟩
      rw [hv, List.head?_cons, Option.bind_some, hl] at hp
      cases hr : g.isReady with
      | true =>
        refine ⟨some h, w, by simp [peek, hs, hv, deref_run hg, hr], hw, rfl, fun _ => rfl, ?_, ?_,
          .refl⟩
        · simpa [Option.filter, g.ready_entry, hr, hl] using hp
        · simp [hv]
      | false =>
        refine ⟨none, w, by simp [peek, hs, hv, deref_run hg, hr], hw, rfl, fun _ => rfl, ?_, by simp,
          .refl⟩
        simpa [Option.filter, g.ready_entry, hr] using hp
  | false =>
    obtain ⟨⟨stale, hl⟩, hmv⟩ := peekLoop_spec w
    have hr : peek.run w = .ok (peekLoop w).1 (peekLoop w).2 := by
      simp [peek, hs]
    rw [hl] at hr hmv
    refine ⟨_, _, hr, hmv.consistent hw, rfl, fun _ => rfl, head_dropStale hw hs, ?_, hmv⟩
    intro h hh
    obtain ⟨s, _, hsh⟩ := Option.bind_eq_some_iff.mp hh
    exact ((hw.readied s h).mp hsh).2.2.1

omit [DecidableEq I] [DecidableEq M] in
theorem showGroup_run_eq {w : World I M} {o : Option Handle} {oe : Option (Entry I M)}
    (h : oe = o.bind w.look) : (showGroup o).run w = .ok (oe.elim .none .group) w := by
  subst h
  cases o <;> rfl

theorem peek_simulated {w : World I M} (hw : Consistent w) : Simulated w .peek := by
  obtain ⟨o, w', hr, hw', hp, hl, hpeek, _, hmv⟩ := peek_run hw
  rw [← funext hl] at hpeek
  refine .of_ok (a := w.plain.peek.elim .none .group) ?_ hw' ?_ hmv
  · simp [perform, hr, showGroup_run_eq hpeek]
  · rw [PlainQueue.step, hp]
    rfl

theorem release_run {w : World I M} (hw : Consistent w) :
    ∃ o w', release.run w = .ok o w' ∧ Consistent w' ∧
      w'.plain = w.plain.peek.elim w.plain w.plain.remove ∧
      (∀ k, w'.look k = w.look k) ∧ w.plain.peek = o.bind w.look ∧
      (o = none ↔ w.plain.peek = none) ∧ Moves w w' := by
  obtain ⟨o, w', hr, hw', hp, hl, hpeek, hin, hmv⟩ := peek_run hw
  cases o with
  | none =>
    refine ⟨none, w', by simp [release, hr], hw', by rw [hpeek, hp]; rfl, hl, hpeek, ?_⟩
    exact ⟨⟨fun _ => hpeek, fun _ => rfl⟩, hmv⟩
  | some h =>
    obtain ⟨id, g, hid, hg, _⟩ := hw'.waiting (hin h rfl)
    have he : w.look h = some (g.entry h) := by
      rw [← hl]
      exact World.look_eq_some.mpr ⟨g, hg, rfl⟩
    refine ⟨some h, w'.removed id h g, ?_, removed_consistent hw' hid hg, ?_, ?_, hpeek, ?_,
      hmv.tail (.remove hid hg)⟩
    · simp [release, hr, remove_run hw'.toRegistered hid hg]
    · rw [plain_removed hw'.toRegistered hid hg, hpeek, Option.bind_some, he, hp]
      rfl
    · exact fun k => (look_removed hg k).trans (hl k)
    · simp [hpeek, he]

theorem step_release {w w' : World I M} {o : Option Handle} (hr : release.run w = .ok o w') :
    step w .release = (.ok ((o.bind w'.look).elim .none .group), w') := by
  refine step_of_ok ?_
  simp [perform, hr, showGroup_run_eq rfl]

theorem release_simulated {w : World I M} (hw : Consistent w) : Simulated w .release := by
  obtain ⟨o, w', hr, hw', hp, hl, hpeek, _, hmv⟩ := release_run hw
  rw [← funext hl] at hpeek
  refine .of_ok (a := w.plain.peek.elim .none .group) ?_ hw' ?_ hmv
  · simp [perform, hr, showGroup_run_eq hpeek]
  · rw [PlainQueue.step, hp]
    rfl

omit [DecidableEq I] [DecidableEq M] in
theorem PlainQueue.peek_mem {q : PlainQueue I M} {e : Entry I M} (h : q.peek = some e) :
    e ∈ q.waiting ∧ e.ready = true := by
  rw [PlainQueue.peek] at h
  split at h
  · obtain ⟨hh, hr⟩ := Option.filter_eq_some_iff.mp h
    exact ⟨List.mem_of_mem_head? hh, hr⟩
  · exact ⟨List.mem_of_find?_eq_some h, List.find?_some h⟩

omit [DecidableEq I] [DecidableEq M] in
theorem PlainQueue.length_remove_lt {q : PlainQueue I M} {e : Entry I M} (h : e ∈ q.waiting) :
    (q.remove e).waiting.length < q.waiting.length :=
  List.length_filter_lt_length_iff_exists.mpr ⟨e, h, by simp⟩

theorem releaseAllLoop_eq (released : List Handle) (w : World I M) :
    releaseAllLoop released w = match release.run w with
      | .ok none w' => .ok released w'
      | .ok (some group) w' => releaseAllLoop (released ++ [group]) w'
      | .error e w' => .error e w' := by
  rw [releaseAllLoop]
  split <;> rename_i h <;> rw [h]

theorem releaseAllLoop_of_none {w w' : World I M} (hr : release.run w = .ok none w')
    (released : List Handle) :
    releaseAllLoop released w = .ok (released ++ []) w' ∧
      w' = final step w (List.replicate 1 .release) ∧
      answers step w (List.replicate 1 .release) = [.ok .none] := by
  have hstep := step_release hr
  refine ⟨?_, ?_, ?_⟩
  · rw [releaseAllLoop_eq, hr, List.append_nil]
  · rw [List.replicate_one, final_cons, hstep]
    rfl
  · rw [List.replicate_one, answers, hstep]
    rfl

theorem releaseAllLoop_run (n : Nat) {w : World I M} (hw : Consistent w)
    (hn : w.plain.waiting.length ≤ n) (released : List Handle) :
    ∃ hs w', releaseAllLoop released w = .ok (released ++ hs) w' ∧ Consistent w' ∧
      (∀ k, w'.look k = w.look k) ∧ (hs.filterMap w.look, w'.plain) = w.plain.releaseUpTo n ∧
      Moves w w' ∧ w' = final step w (List.replicate (hs.length + 1) .release) ∧
      answers step w (List.replicate (hs.length + 1) .release) =
        (hs.filterMap w.look).map (fun e => .ok (.group e)) ++ [.ok .none] := by
  induction n generalizing w released with
  | zero =>
    obtain ⟨o, w', hr, hw', hp, hl, hpeek, hnone, hmv⟩ := release_run hw
    have hnil : w.plain.peek = none := by
      refine Option.eq_none_iff_forall_ne_some.mpr fun e he => ?_
      have hpos := List.length_pos_of_mem (PlainQueue.peek_mem he).1
      omega
    obtain rfl := hnone.mpr hnil
    rw [hnil] at hp
    obtain ⟨hloop, hfin, hans⟩ := releaseAllLoop_of_none hr released
    exact ⟨[], w', hloop, hw', hl, by rw [hp]; rfl, hmv, hfin, hans⟩
  | succ n ih =>
    obtain ⟨o, w', hr, hw', hp, hl, hpeek, hnone, hmv⟩ := release_run hw
    rw [PlainQueue.releaseUpTo]
    cases o with
    | none =>
      rw [hpeek] at hp
      obtain ⟨hloop, hfin, hans⟩ := releaseAllLoop_of_none hr released
      exact ⟨[], w', hloop, hw', hl, by rw [hp, hpeek]; rfl, hmv, hfin, hans⟩
    | some h =>
      cases he : w.plain.peek with
      | none => exact absurd (hnone.mpr he) (by simp)
      | some e =>
        rw [he, Option.elim_some] at hp
        have hlt := PlainQueue.length_remove_lt (PlainQueue.peek_mem he).1
        rw [← hp] at hlt
        obtain ⟨hs, w₂, hr₂, hw₂, hl₂, hu, hmv₂, hfin, hans⟩ := ih hw' (by omega) (released ++ [h])
        refine ⟨h :: hs, w₂, ?_, hw₂, fun k => (hl₂ k).trans (hl k), ?_, hmv.trans hmv₂, ?_, ?_⟩
        · rw [releaseAllLoop_eq, hr]
          simpa using hr₂
        · rw [he, Option.bind_some] at hpeek
          rw [funext hl, hp] at hu
          rw [List.filterMap_cons_some hpeek.symm]
          dsimp only
          rw [← hu]
        · rw [List.length_cons, List.replicate_succ, final_cons, step_release hr]
          exact hfin
        · rw [he, Option.bind_some] at hpeek
          rw [List.length_cons, List.replicate_succ, answers, step_release hr]
          dsimp only
          rw [hans, funext hl, Option.bind_some, ← hpeek, List.filterMap_cons_some hpeek.symm]
          rfl

theorem step_releaseAll {w w' : World I M} {hs : List Handle}
    (hr : releaseAllLoop [] w = .ok hs w') :
    step w .releaseAll = (.ok (.groups (hs.filterMap w'.look)), w') := by
  have hrun : releaseAll.run w = .ok hs w' := hr
  refine step_of_ok ?_
  simp [perform, hrun, showGroups_run]

theorem length_shown {w : World I M} {hs : List Handle}
    (h : answers step w (List.replicate (hs.length + 1) .release) =
      (hs.filterMap w.look).map (fun e => .ok (.group e)) ++ [.ok .none]) :
    (hs.filterMap w.look).length = hs.length := by
  have hl := congrArg List.length h
  simpa [length_answers] using hl.symm

/-- A `release_all` is the `release` calls of its loop, up to the one that returns nothing. -/
theorem releaseAll_eq_releases {w : World I M} (hw : Consistent w) :
    ∃ es : List (Entry I M), (step w .releaseAll).1 = .ok (.groups es) ∧
      (step w .releaseAll).2 = final step w (List.replicate (es.length + 1) .release) ∧
      answers step w (List.replicate (es.length + 1) .release) =
        es.map (fun e => .ok (.group e)) ++ [.ok .none] := by
  obtain ⟨hs, w', hr, _, hl, _, _, hfin, hans⟩ := releaseAllLoop_run _ hw (Nat.le_refl _) []
  have hstep := step_releaseAll hr
  have hlen := length_shown hans
  refine ⟨hs.filterMap w.look, ?_, ?_, ?_⟩
  · rw [hstep, funext hl]
    rfl
  · rw [hstep, hlen]
    exact hfin
  · rw [hlen]
    exact hans

theorem releaseAll_simulated {w : World I M} (hw : Consistent w) : Simulated w .releaseAll := by
  obtain ⟨hs, w', hr, hw', hl, hu, hmv, _, _⟩ := releaseAllLoop_run _ hw (Nat.le_refl _) []
  have hrun : releaseAll.run w = .ok hs w' := hr
  refine .of_ok (a := .groups (hs.filterMap w.look)) ?_ hw' ?_ hmv
  · simp [perform, hrun, showGroups_run, funext hl]
  · rw [PlainQueue.step, ← hu]

end Tito
