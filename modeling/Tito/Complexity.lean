import Tito.Charged
import Tito.HeapCost
import Tito.ReleaseAll
import Mathlib.Tactic.Ring

namespace Tito

open Lib Lib.Heapq Lib.Effects Lib.Cost Lib.Mealy

variable {I M : Type}

def Entry.load (e : Entry I M) : Nat := e.flags.length + 1

/-- How much a call has to do with, by the line in which it finds the groups. A refused admission
looks every member up among the duplicates. -/
def PlainQueue.handled [DecidableEq I] [DecidableEq M] (q : PlainQueue I M) : Op I M → Nat
  | .admitGroup _ (.iterable elements) =>
    elements.length * ((duplicatesOf (elements.filterMap Value.toOption)).length + 1)
  | .markGroupReady groupId => (q.find groupId).elim 0 Entry.load
  | .cancel groupId => (q.find groupId).elim 0 Entry.load
  | .release => q.peek.elim 0 Entry.load
  | .releaseAll => ((q.releaseUpTo q.waiting.length).1.map Entry.load).sum
  | .clear => (q.waiting.map Entry.load).sum
  | .groups => (q.waiting.map Entry.load).sum
  | _ => 0

/-- What a write to the ready index pays for, in a heap of so many levels. -/
def Write.price (levels : Nat) : Write I M → Nat
  | .push _ => levels + 2
  | .popStale _ => 2 * levels + 5
  | .rebuild entries => 4 * entries
  | _ => 0

def levels (waiting : Nat) : Nat := Nat.log 2 (2 * waiting + 9)

/-- What the writes so far have paid for. -/
def World.account (w : World I M) (n : Nat) : Nat := w.total (Write.price (levels n))

theorem World.account_eq (w : World I M) (n : Nat) :
    w.account n = (levels n + 2) * w.total Write.pushes +
      (2 * levels n + 5) * w.total Write.pops + 4 * w.total Write.rebuilds := by
  simp only [World.account, World.total]
  induction w.trace with
  | nil => rfl
  | cons e es ih =>
    simp only [List.map_cons, List.sum_cons, Nat.mul_add, ih]
    cases e <;> simp only [Write.price, Write.pushes, Write.pops, Write.rebuilds] <;> omega

theorem World.account_append {w w' : World I M} {es : List (Write I M)}
    (h : w'.trace = w.trace ++ es) (n : Nat) :
    w'.account n = w.account n + (es.map (Write.price (levels n))).sum := World.total_append h _

theorem World.account_heap (w : World I M) (heap : List Nat) (e : Write I M) (n : Nat) :
    ({ w with readyHeap := heap }.wrote e).account n = w.account n + e.price (levels n) := by
  have htrace : ({ w with readyHeap := heap }.wrote e).trace = w.trace ++ [e] := rfl
  rw [World.account_append htrace, List.map_singleton, List.sum_singleton]

def Pays (n : Nat) (w w' : World I M) : Prop := w.account n ≤ w'.account n

theorem frame_pays (n : Nat) : Frame (Pays (I := I) (M := M) n) :=
  ⟨fun _ => Nat.le_refl _, Nat.le_trans⟩

theorem pays_of_trace {w w' : World I M} {es : List (Write I M)} (h : w'.trace = w.trace ++ es)
    (n : Nat) : Pays n w w' := by
  rw [Pays, World.account_append h]
  exact Nat.le_add_right _ _

variable [DecidableEq I] [DecidableEq M]

/-- A queue in which the heap is bounded by the groups that wait, of which there are at most `n`. -/
structure Fits (n : Nat) (w : World I M) : Prop where
  consistent : Consistent w
  paid : PaidFor w
  waiting : w.groups.length ≤ n

theorem Fits.heap {n : Nat} {w : World I M} (h : Fits n w) : w.readyHeap.length ≤ 2 * n + 8 := by
  have hb := h.paid.bounded
  have hr := h.consistent.length_readyGroups_le
  have hn := h.waiting
  omega

theorem Move.length_groups_le {w w' : World I M} (h : Move w w') :
    w'.groups.length ≤ w.groups.length := by
  cases h with
  | mark hg hm =>
    rw [World.marked]
    split
    · exact Nat.le_refl _
    · exact Nat.le_refl _
  | @remove id k g hid hg =>
    have hle : (w.withdrawn id k g).groups.length ≤ w.groups.length := List.length_filter_le _ _
    rw [World.removed, World.compacted]
    split
    · split
      · exact hle
      · exact hle
    · exact hle
  | clear => exact Nat.zero_le _
  | pop hh hs => exact Nat.le_refl _

theorem Fits.moves {n : Nat} {w w' : World I M} (hw : Fits n w) (h : Moves w w') : Fits n w' := by
  induction h with
  | refl => exact hw
  | tail _ hm ih =>
    exact ⟨hm.consistent ih.consistent, hm.paidFor ih.consistent ih.paid,
      hm.length_groups_le.trans ih.waiting⟩

namespace Priced

section

omit [DecidableEq I] [DecidableEq M]

variable {n : Nat} {w : World I M}

/-- From `w` the method takes at most `k` steps, besides those that its writes pay for. -/
abbrev Costs {α : Type} (n k : Nat) (x : Method I M α) (w : World I M) : Prop :=
  Within (World.account · n) k x w

theorem costs_once {α : Type} {x : Py I M α} (hx : Keeps (Pays n) x) : Costs n 1 (once x) w :=
  .once (hx w)

theorem costs_get : Costs n 1 (once get) w := costs_once (frame_pays n).get

theorem costs_get_bind {α : Type} {x : World I M → Method I M α} {k : Nat}
    (hx : Costs n k (x w) w) : Costs n (1 + k) (once get >>= x) w :=
  Within.bind_of_ok costs_get rfl hx

theorem costs_deref (h : Handle) : Costs n 1 (once (deref h)) w :=
  costs_once (keeps_deref (frame_pays n) h)

theorem costs_modify {f : World I M → World I M} {es : List (Write I M)}
    (h : ∀ w, (f w).trace = w.trace ++ es) : Costs n 1 (once (modify f)) w :=
  costs_once (Frame.modify fun w => pays_of_trace (h w) n)

theorem costs_free {α : Type} {x : Py I M α} (hx : Keeps (Pays n) x) : Costs n 0 (free x) w :=
  .free (hx w)

theorem costs_charge {α : Type} {f : World I M → Nat} {x : Py I M α} {k : Nat} (hk : f w ≤ k)
    (hx : Keeps (Pays n) x) : Costs n k (charge f x) w := .charge (Nat.add_le_add hk (hx w))

theorem deref_ok {h : Handle} {g : Group I M} {t : World I M} (ht : (deref h).run w = .ok g t) :
    t = w ∧ w.objects[h]? = some g := by
  cases hg : w.objects[h]? with
  | none =>
    rw [deref_run_of_none hg] at ht
    cases ht
  | some g' =>
    rw [deref_run hg] at ht
    cases ht
    exact ⟨rfl, rfl⟩

theorem costs_deref_bind {α : Type} {h : Handle} {g : Group I M} (hg : w.objects[h]? = some g)
    {x : Group I M → Method I M α} {k : Nat} (hx : Costs n k (x g) w) :
    Costs n (1 + k) (once (deref h) >>= x) w := Within.bind_of_ok (costs_deref h) (deref_run hg) hx

theorem costs_modify_bind {α : Type} {f : World I M → World I M} {items : World I M → Nat}
    {es : List (Write I M)} (h : ∀ w, (f w).trace = w.trace ++ es) {x : Unit → Method I M α} {k : Nat}
    (hx : Costs n k (x ()) (f w)) : Costs n (items w + k) (charge items (modify f) >>= x) w :=
  Within.bind_of_ok (costs_charge (Nat.le_refl _) (Frame.modify fun w => pays_of_trace (h w) n))
    rfl hx

theorem costs_noteReady (hheap : w.readyHeap.length ≤ 2 * n + 8) (h : Handle) :
    Costs n 4 (noteReady h) w := by
  suffices hrest : Costs n (1 + (1 + (1 + 0))) _ w from Within.tick_bind hrest
  refine Within.bind (costs_deref h) fun g t ht => ?_
  obtain ⟨rfl, -⟩ := deref_ok ht
  apply costs_get_bind
  split
  · exact Within.tick 1
  · refine Within.bind (costs_modify fun _ => rfl) fun _ u hu => ?_
    have hu : u.readyHeap.length + 1 ≤ 2 * n + 9 := by
      cases hu
      exact Nat.add_le_add_right hheap 1
    refine Within.charge ?_
    have hrounds := heappushRounds_le u.readyHeap g.sequence
    have hlevels : Nat.log 2 (u.readyHeap.length + 1) ≤ levels n := Nat.log_mono_right hu
    rw [after_modify, World.account_heap, Write.price]
    omega

theorem costs_compactReadyHeap : Costs n 3 (compactReadyHeap (I := I) (M := M)) w := by
  apply costs_get_bind (k := 2)
  split
  · exact (Within.tick 1).mono (Nat.le_succ 1)
  · refine Within.charge ?_
    have hrounds := heapifyRounds_le w.readyGroups.keys
    rw [Dict.length_keys] at hrounds
    rw [after_modify, World.account_heap, Write.price]
    omega

/-- Every stale entry pays for its pop. -/
theorem costs_peekLoop (hheap : w.readyHeap.length ≤ 2 * n + 8) :
    Costs n 4 (charge peekLoopSteps (modifyGet peekLoop)) w := by
  suffices h : peekLoopSteps w + w.account n ≤ 4 + (peekLoop w).2.account n from Within.charge h
  induction w using peekLoop.induct with
  | case1 w hw =>
    rw [peekLoop_nil hw, peekLoopSteps_nil hw]
    exact Nat.add_le_add_right (by decide) _
  | case2 w top t hw g hg => rw [peekLoop_live hw hg, peekLoopSteps_live hw hg]
  | case3 w top t hw hg ih =>
    have hlen : (heappop w.readyHeap).length ≤ w.readyHeap.length := by
      rw [hw, LazyHeap.length_heappop_cons]
      exact Nat.le_succ _
    have hrest := ih (hlen.trans hheap)
    have hrounds := heappopRounds_le w.readyHeap
    have hlevels : Nat.log 2 w.readyHeap.length ≤ levels n :=
      Nat.log_mono_right (hheap.trans (Nat.le_succ _))
    rw [World.account_heap, Write.price] at hrest
    rw [peekLoop_stale hw hg, peekLoopSteps_stale hw hg]
    omega

theorem costs_isReady (h : Handle) : Costs n 2 (isReady h) w := by
  suffices hrest : Costs n (1 + 0) _ w from Within.tick_bind hrest
  exact Within.bind (costs_deref h) fun _ _ _ => Within.pure _

theorem costs_peek (hheap : w.readyHeap.length ≤ 2 * n + 8) : Costs n 8 (peek (I := I)) w := by
  suffices hrest : Costs n (1 + 6) _ w from Within.tick_bind hrest
  apply costs_get_bind
  split
  · suffices hrest : Costs n (2 + (1 + 0)) _ w from
      (Within.tick_bind hrest).mono (Nat.le_succ 5)
    split
    · refine (Within.tick_bind (m := 0) ?_).mono (Nat.le_add_left 1 2)
      exact Within.pure _
    · refine Within.bind (costs_isReady _) fun b _ _ => Within.tick_bind ?_
      split
      · exact Within.pure _
      · exact Within.pure _
  · exact Within.tick_bind (m := 4) (costs_peekLoop hheap)

end

section

omit [DecidableEq I]

variable {n : Nat} {w : World I M}

theorem markSteps_le (g : Group I M) (member : Value M) : markSteps g member ≤ 6 := by
  cases member with
  | unhashable t => exact Nat.le_add_left 3 3
  | hashable m =>
    rw [markSteps]
    split
    · exact Nat.le_add_left 2 4
    · exact Nat.le_add_left 2 4
    · split
      · exact Nat.le_refl 6
      · exact Nat.le_succ 5

theorem costs_groupMarkReady (hheap : w.readyHeap.length ≤ 2 * n + 8) (h : Handle)
    (member : Value M) : Costs n 16 (groupMarkReady h member) w := by
  suffices hrest : Costs n (1 + (6 + 8)) _ w from Within.tick_bind hrest
  refine Within.bind (costs_deref h) fun g t ht => ?_
  obtain ⟨rfl, -⟩ := deref_ok ht
  suffices hrest : Costs n 8 _ t from
    (Within.tick_bind hrest).mono (Nat.add_le_add_right (markSteps_le g member) 8)
  split
  · exact (costs_free ((frame_pays n).throw _)).mono (Nat.zero_le _)
  · rename_i marked _
    have hstore : Costs n 0 (free (store h marked.group)) t :=
      costs_free (Frame.modify fun _ => Nat.le_refl _)
    apply Within.bind_of_ok (m := 8) hstore rfl
    split
    · exact (Within.pure _).mono (Nat.zero_le _)
    · refine Within.tick_bind (m := 4 + 0) ?_
      refine Within.bind (costs_noteReady ?_ h) fun _ _ _ => Within.pure _
      exact hheap

end

variable {n : Nat} {w : World I M}

omit [DecidableEq M] in
theorem pays_delGroup (id : Value I) : Keeps (Pays n) (delGroup (M := M) id) := by
  cases id with
  | unhashable t => exact (frame_pays n).throw _
  | hashable id =>
    refine (frame_pays n).bind (frame_pays n).get fun w => ?_
    split
    · exact Frame.modify fun w => pays_of_trace rfl n
    · exact (frame_pays n).throw _

theorem costs_remove {h : Handle} {g : Group I M} (hg : w.objects[h]? = some g) :
    Costs n (2 * g.members.length + 11) (remove h) w := by
  have hk : 0 + (1 + (2 + (2 * g.members.length + (1 + (1 + (1 + (1 + (1 + 3)))))))) =
      2 * g.members.length + 11 := by omega
  rw [← hk]
  refine Within.bind (costs_free (keeps_deref (frame_pays n) h)) fun g' t ht => ?_
  obtain ⟨rfl, hg'⟩ := deref_ok ht
  obtain rfl := Option.some.inj (hg.symm.trans hg')
  refine Within.bind (costs_once (pays_delGroup _)) fun _ _ _ => Within.tick_bind ?_
  refine Within.bind (Within.forM_of_forall fun m _ s => ?_) fun _ _ _ => ?_
  · exact Within.tick_bind (m := 1) (costs_once (keeps_delMember (frame_pays n)
      (fun w m _ => pays_of_trace rfl n) m))
  refine Within.tick_bind (Within.bind (costs_once (keeps_setOnReady (frame_pays n)
    (fun _ _ => Nat.le_refl _) h none)) fun _ _ _ => Within.tick_bind ?_)
  refine Within.bind (costs_once (keeps_popReady (frame_pays n)
    (fun w s _ => pays_of_trace rfl n) _)) fun b _ _ => ?_
  split
  · exact Within.tick_bind costs_compactReadyHeap
  · exact (Within.pure _).mono (Nat.zero_le _)

omit [DecidableEq M] in
theorem costs_find (id : Value I) : Costs n 3 (find (M := M) id) w := by
  cases id with
  | unhashable t => exact Within.tick_bind (m := 0) (Within.pure _)
  | hashable id =>
    exact (costs_get_bind (k := 0) (Within.pure _)).mono (Nat.le_add_left 1 2)

omit [DecidableEq M] in
theorem costs_find_bind {α : Type} {id : Value I} {o : Option Handle}
    (ho : id.toOption.bind w.groups.get? = o) {x : Option Handle → Method I M α} {k : Nat}
    (hx : Costs n k (x o) w) : Costs n (3 + k) (find id >>= x) w := by
  apply Within.bind_of_ok (costs_find id) _ hx
  rw [unmetered_find, find_run, ho]

theorem costs_groupOf (member : Value M) : Costs n 5 (groupOf (I := I) member) w := by
  suffices hrest : Costs n 4 _ w from Within.tick_bind hrest
  cases member with
  | unhashable t => exact Within.tick_bind (m := 0) (Within.pure _)
  | hashable m =>
    refine (costs_get_bind (k := 2) ?_).mono (Nat.le_succ 3)
    split
    · exact Within.tick_bind (m := 0) (Within.pure _)
    · refine (costs_get_bind (k := 0) ?_).mono (Nat.le_succ 1)
      split
      · exact Within.pure _
      · exact costs_free ((frame_pays n).throw _)

theorem costs_markReady (hw : Fits n w) (member : Value M) :
    Costs n 25 (markReady (I := I) member) w := by
  suffices hrest : Costs n (5 + (1 + 17)) _ w from Within.tick_bind hrest
  refine Within.bind (costs_groupOf member) fun o t ht => Within.tick_bind ?_
  rw [unmetered_groupOf, groupOf_run hw.consistent.toRegistered] at ht
  cases ht
  split
  · exact (Within.raise _).mono (Nat.le_add_left 1 16)
  · exact Within.tick_bind (m := 16) (costs_groupMarkReady hw.heap _ member)

omit [DecidableEq I] [DecidableEq M] in
theorem load_entry (g : Group I M) (h : Handle) : (g.entry h).load = g.members.length + 1 := by
  rw [← g.members_entry h, Entry.members, List.length_map]
  rfl

theorem costs_markGroupReady (hw : Fits n w) (id : Value I) :
    Costs n (9 + 18 * (w.plain.find id).elim 0 Entry.load) (markGroupReady id) w := by
  cases hid : id.toOption.bind w.groups.get? with
  | none =>
    suffices hrest : Costs n (3 + (1 + 1)) _ w from
      (Within.tick_bind hrest).mono (by omega)
    apply costs_find_bind hid
    apply Within.tick_bind
    apply Within.raise
  | some h =>
    obtain ⟨i, g, _, hg, hfind⟩ := found_of_find hw.consistent.toRegistered hid
    rw [hfind, Option.elim_some, load_entry]
    suffices hrest : Costs n (3 + (1 + (1 + (18 * g.members.length + 2)))) _ w from
      (Within.tick_bind hrest).mono (by omega)
    apply costs_find_bind hid
    apply Within.tick_bind
    apply costs_deref_bind hg
    -- every round leaves a queue that fits, with a group of the same members at the handle
    refine Within.bind (Within.forM (P := fun s => Fits n s ∧
      ∃ g' : Group I M, s.objects[h]? = some g' ∧ g'.members = g.members) ?_ ?_ ⟨hw, g, hg, rfl⟩)
      fun _ _ _ => Within.tick_bind (m := 0) (Within.pure true)
    · intro m hm s hs
      refine Within.tick_bind (m := 16) ?_
      exact Within.bind (m := 0) (costs_groupMarkReady hs.1.heap h _) fun _ _ _ => Within.pure _
    · rintro m hm s s' ⟨hs, g', hg', hmembers⟩ hrun
      obtain ⟨u, hr, -, -, hshape, hmoves⟩ :=
        groupMarkReady_member hs.consistent hg' (hmembers ▸ hm)
      rw [unmetered_tick_bind, unmetered_bind, unmetered_groupMarkReady, EStateM.run_bind, hr] at hrun
      cases hrun
      have hh := hshape h
      rw [World.shapeAt, World.shapeAt, hg'] at hh
      obtain ⟨g₁, hg₁, he⟩ := Option.map_eq_some_iff.mp hh
      exact ⟨hs.moves hmoves, g₁, hg₁, (congrArg (fun s => s.2.1) he).trans hmembers⟩

theorem costs_cancel (hw : Fits n w) (id : Value I) :
    Costs n (19 + 2 * (w.plain.find id).elim 0 Entry.load) (cancel id) w := by
  cases hid : id.toOption.bind w.groups.get? with
  | none =>
    suffices hrest : Costs n (3 + (1 + 1)) _ w from
      (Within.tick_bind hrest).mono (by omega)
    apply costs_find_bind hid
    apply Within.tick_bind
    apply Within.raise
  | some h =>
    obtain ⟨i, g, _, hg, hfind⟩ := found_of_find hw.consistent.toRegistered hid
    rw [hfind, Option.elim_some, load_entry]
    suffices hrest : Costs n (3 + (1 + (1 + (2 * g.members.length + 11 + (1 + 0))))) _ w from
      (Within.tick_bind hrest).mono (by omega)
    apply costs_find_bind hid
    apply Within.tick_bind
    apply Within.tick_bind
    refine Within.bind (costs_remove hg) fun _ _ _ => Within.tick_bind ?_
    apply Within.pure

theorem length_memberIndex_le (hw : Consistent w) :
    w.memberIndex.length + w.groups.length ≤ (w.plain.waiting.map Entry.load).sum := by
  have hsub : w.memberIndex.keys ⊆ w.plain.waiting.flatMap Entry.members := by
    intro m hm
    obtain ⟨id, hid⟩ := Dict.mem_keys_iff.mp hm
    obtain ⟨e, he, hme, -⟩ := (memberIndex_iff_waiting hw m id).mp hid
    exact List.mem_flatMap.mpr ⟨e, he, hme⟩
  have hlen : w.memberIndex.keys.length ≤ (w.plain.waiting.flatMap Entry.members).length :=
    (List.subperm_of_subset w.memberIndex.nodup hsub).length_le
  have hload : ∀ es : List (Entry I M), (es.flatMap Entry.members).length + es.length =
      (es.map Entry.load).sum := by
    intro es
    induction es with
    | nil => rfl
    | cons e es ih =>
      rw [List.flatMap_cons, List.length_append, List.map_cons, List.sum_cons, ← ih, Entry.load,
        Entry.members, List.length_map, List.length_cons]
      omega
  rw [← hload, hw.length_waiting]
  rw [Dict.length_keys] at hlen
  exact Nat.add_le_add_right hlen _

theorem costs_clear (hw : Fits n w) :
    Costs n (16 + 7 * (w.plain.waiting.map Entry.load).sum) (clear (I := I) (M := M)) w := by
  have hm := length_memberIndex_le hw.consistent
  have hr := hw.consistent.length_readyGroups_le
  have hb := hw.paid.bounded
  have hsum : 1 + (w.groups.length + 1 + (2 * w.groups.values.length + (1 +
      (w.groups.length + 1 + (w.memberIndex.length + 1 + (w.readyGroups.length + 1 +
        (w.readyHeap.length + 1 + (1 + 0)))))))) ≤
      16 + 7 * (w.plain.waiting.map Entry.load).sum := by
    rw [Dict.length_values]
    omega
  refine Within.mono (Within.tick_bind ?_) hsum
  refine Within.bind (costs_charge (Nat.le_refl _) (frame_pays n).get) fun o t ht => ?_
  cases ht
  obtain ⟨os, hrun, -⟩ := forM_setOnReady_run w.groups.values w
    fun h hh => hw.consistent.counted ▸ hw.consistent.lt_sequence hh
  refine Within.bind (Within.forM_of_forall fun h _ s => ?_) fun _ t ht => ?_
  · exact Within.tick_bind (m := 1) (costs_once (keeps_setOnReady (frame_pays n)
      (fun _ _ => Nat.le_refl _) h none))
  rw [List.forM_eq_forM, unmetered_forM] at ht
  simp only [unmetered_tick_bind, unmetered_once] at ht
  cases hrun.symm.trans ht
  apply Within.tick_bind
  apply costs_modify_bind fun _ => rfl
  apply costs_modify_bind fun _ => rfl
  apply costs_modify_bind fun _ => rfl
  apply costs_modify_bind fun _ => rfl
  apply Within.tick_bind
  apply Within.pure

theorem costs_release (hw : Fits n w) :
    Costs n (24 + 2 * w.plain.peek.elim 0 Entry.load) (release (I := I) (M := M)) w := by
  obtain ⟨o, w', hrun, hw', -, hlook, hpeek, hin, -⟩ := peek_run hw.consistent
  have hmetered : (unmetered peek).run w = .ok o w' := by rw [unmetered_peek, hrun]
  cases o with
  | none =>
    suffices hrest : Costs n (8 + (2 + 0)) _ w from (Within.tick_bind hrest).mono (by omega)
    apply Within.bind_of_ok (costs_peek hw.heap) hmetered
    apply Within.tick_bind
    apply Within.pure
  | some h =>
    obtain ⟨_, g, _, hg, _⟩ := hw'.waiting (hin h rfl)
    have hentry : w.look h = some (g.entry h) := by
      rw [← hlook]
      exact World.look_eq_some.mpr ⟨g, hg, rfl⟩
    rw [hpeek, Option.bind_some, hentry, Option.elim_some, load_entry]
    suffices hrest : Costs n (8 + (2 + (2 * g.members.length + 11 + (1 + 0)))) _ w from
      (Within.tick_bind hrest).mono (by omega)
    apply Within.bind_of_ok (costs_peek hw.heap) hmetered
    apply Within.tick_bind
    refine Within.bind (costs_remove hg) fun _ _ _ => Within.tick_bind ?_
    apply Within.pure

theorem costs_releaseAllLoop (rounds : Nat) (hw : Fits n w) (released : List Handle) :
    Costs n (28 + 30 * ((w.plain.releaseUpTo rounds).1.map Entry.load).sum)
      (releaseAllLoop rounds released) w := by
  induction rounds generalizing w released with
  | zero => exact (Within.pure _).mono (Nat.zero_le _)
  | succ rounds ih =>
    obtain ⟨o, w', hrun, -, hplain, -, -, hnone, hmoves⟩ := release_run hw.consistent
    have hcost := costs_release hw
    have hmetered : (unmetered release).run w = .ok o w' := by rw [unmetered_release, hrun]
    rw [PlainQueue.releaseUpTo]
    cases hp : w.plain.peek with
    | none =>
      rw [hp] at hcost
      suffices hrest : Costs n (24 + (2 + 0)) _ w from Within.tick_bind hrest
      apply Within.bind_of_ok hcost hmetered
      apply Within.tick_bind
      rw [hnone.mpr hp]
      apply Within.pure
    | some e =>
      rw [hp] at hcost hplain hnone
      have hrest : w'.plain = w.plain.remove e := hplain
      have hload : 1 ≤ e.load := Nat.le_add_left 1 _
      have hsum : 2 + (24 + 2 * e.load + (2 + (28 + 30 * ((w'.plain.releaseUpTo rounds).1.map
          Entry.load).sum))) ≤ 28 + 30 * ((e :: ((w.plain.remove e).releaseUpTo rounds).1).map
            Entry.load).sum := by
        rw [hrest, List.map_cons, List.sum_cons]
        omega
      apply Within.mono (Within.tick_bind _) hsum
      apply Within.bind_of_ok hcost hmetered
      apply Within.tick_bind
      cases o with
      | none => cases hnone.mp rfl
      | some h => exact ih (hw.moves hmoves) _

theorem costs_releaseAll (hw : Fits n w) :
    Costs n (30 + 30 * ((w.plain.releaseUpTo w.plain.waiting.length).1.map Entry.load).sum)
      (releaseAll (I := I) (M := M)) w := by
  have hvalid := hw.consistent.plain_valid
  have henough : w.plain.waiting.length ≤ w.groups.length + 1 := by
    rw [hw.consistent.length_waiting]
    exact Nat.le_succ _
  have hout : (w.plain.releaseUpTo w.plain.waiting.length).1 =
      (w.plain.releaseUpTo (w.groups.length + 1)).1 :=
    (hvalid.releaseUpTo_eq (Nat.le_refl _)).1.trans (hvalid.releaseUpTo_eq henough).1.symm
  rw [hout]
  suffices hrest : Costs n (0 + (28 + 30 * ((w.plain.releaseUpTo (w.groups.length + 1)).1.map
      Entry.load).sum)) _ w from (Within.tick_bind hrest).mono (by omega)
  refine Within.bind (costs_free (frame_pays n).get) fun o t ht => ?_
  cases ht
  exact costs_releaseAllLoop _ hw []

omit [DecidableEq I] in
theorem duplicatesSteps_le (seen duplicates ms : List M) :
    duplicatesSteps seen duplicates ms ≤
      ms.length * ((duplicatesFrom seen duplicates ms).length + 4) + 1 ∧
      duplicates.length ≤ (duplicatesFrom seen duplicates ms).length := by
  induction ms generalizing seen duplicates with
  | nil => exact ⟨Nat.le_add_left 1 _, Nat.le_refl _⟩
  | cons m ms ih =>
    obtain ⟨hsteps, hlen⟩ := ih (m :: seen)
      (if m ∈ seen ∧ m ∉ duplicates then duplicates ++ [m] else duplicates)
    have hgrow : duplicates.length ≤
        (if m ∈ seen ∧ m ∉ duplicates then duplicates ++ [m] else duplicates).length := by
      split
      · rw [List.length_append]
        exact Nat.le_add_right _ _
      · exact Nat.le_refl _
    have hscan : (if m ∈ seen then min (duplicates.idxOf m + 1) duplicates.length else 0) ≤
        duplicates.length := by
      split
      · exact Nat.min_le_right _ _
      · exact Nat.zero_le _
    have hfixed : (if m ∈ seen ∧ m ∉ duplicates then 4 else 3) ≤ 4 := by
      split
      · exact Nat.le_refl 4
      · exact Nat.le_succ 3
    rw [duplicatesSteps, duplicatesFrom, List.length_cons, Nat.succ_mul]
    exact ⟨by omega, hgrow.trans hlen⟩

omit [DecidableEq I] [DecidableEq M] in
theorem sum_hashes_le (elements : List (Value M)) :
    (elements.map fun v => if isHashable v then 3 else 4).sum ≤ 4 * elements.length := by
  induction elements with
  | nil => exact Nat.le_refl 0
  | cons v vs ih =>
    rw [List.map_cons, List.sum_cons, List.length_cons]
    split
    · omega
    · omega

theorem initSteps_le (q : PlainQueue I M) (id : Value I) (members : Members M) :
    initSteps members ≤ 12 + 6 * q.handled (.admitGroup id members) := by
  cases members with
  | text t => exact Nat.le_add_left 2 _
  | notIterable => exact Nat.le_add_left 2 _
  | iterable elements =>
    rw [initSteps, PlainQueue.handled]
    generalize hd : (duplicatesOf (elements.filterMap Value.toOption)).length = d
    have hmul : elements.length * (d + 1) = elements.length * d + elements.length :=
      Nat.mul_succ _ _
    split
    · omega
    · split
      · have hwalk : (elements.takeWhile isHashable).length ≤ elements.length :=
          (List.takeWhile_sublist isHashable).length_le
        have hhashes := sum_hashes_le elements
        omega
      · rename_i ms hms
        obtain rfl := hashAll_eq_some.mp hms
        rw [PlainQueue.filterMap_toOption_map_hashable] at hd
        split
        · omega
        · obtain ⟨hsteps, -⟩ := duplicatesSteps_le [] [] ms
          rw [show (duplicatesFrom [] [] ms).length = d from hd, Nat.mul_add] at hsteps
          rw [List.length_map] at hmul ⊢
          omega

theorem buildSteps_le (q : PlainQueue I M) (id : Value I) (members : Members M) :
    buildSteps id members ≤ 16 + 6 * q.handled (.admitGroup id members) := by
  have hinit := initSteps_le q id members
  unfold buildSteps
  split
  · omega
  · omega
  · omega

theorem costs_admitCommit (id : I) (g : Group I M) :
    Costs n (14 + 3 * g.members.length) (admitCommit id g) w := by
  have hsum : 1 + (1 + (g.members.length + 4 + (1 + (1 + (1 + (1 + (1 +
      (2 * g.members.length + (1 + (1 + (1 + 0))))))))))) ≤ 14 + 3 * g.members.length := by omega
  refine Within.mono (Within.tick_bind (costs_get_bind ?_)) hsum
  split
  · exact (Within.raise _).mono (by omega)
  · refine Within.tick_bind ?_
    split
    · have hlen : (g.members.filter fun m => w.memberIndex.contains m).length ≤
          g.members.length := List.length_filter_le _ _
      refine (Within.tick_bind (m := 1) ?_).mono (by omega)
      exact Within.raise _
    · refine Within.bind (costs_once (Frame.modifyGet fun _ => Nat.le_refl _)) fun h _ _ => ?_
      refine Within.bind (costs_once (Frame.modify fun _ => Nat.le_refl _)) fun _ _ _ => ?_
      refine Within.tick_bind (Within.bind (costs_modify fun _ => rfl) fun _ _ _ => ?_)
      refine Within.tick_bind ?_
      refine Within.bind (Within.forM_of_forall fun m _ s => ?_) fun _ _ _ => ?_
      · exact Within.tick_bind (m := 1) (costs_modify fun _ => rfl)
      refine Within.tick_bind (Within.bind (costs_once (keeps_setOnReady (frame_pays n)
        (fun _ _ => Nat.le_refl _) h _)) fun _ _ _ => Within.tick_bind ?_)
      exact Within.pure h

theorem length_members_le (q : PlainQueue I M) {groupId : Value I} {members : Members M} {id : I}
    {g : Group I M} (h : admitBuild groupId members = .ok (id, g)) :
    g.members.length ≤ q.handled (.admitGroup groupId members) := by
  cases members with
  | text t => cases h
  | notIterable => cases h
  | iterable vs =>
    rcases init_iterable groupId vs 0 with ⟨-, hi⟩ | ⟨-, -, hi⟩ | ⟨ms, -, -, hi⟩ |
      ⟨ms, hne, hnd, rfl, hi⟩
    · rw [admitBuild, hi] at h
      cases h
    · rw [admitBuild, hi] at h
      cases h
    · rw [admitBuild, hi] at h
      cases h
    · rw [admitBuild, hi] at h
      cases groupId with
      | unhashable t => cases h
      | hashable id =>
        cases h
        rw [PlainQueue.handled, List.length_map]
        exact Nat.le_mul_of_pos_right _ (Nat.succ_pos _)

theorem costs_admitGroup (id : Value I) (members : Members M) :
    Costs n (30 + 9 * w.plain.handled (.admitGroup id members)) (admitGroup id members) w := by
  have hbuild := buildSteps_le w.plain id members
  suffices hrest : Costs n (14 + 3 * w.plain.handled (.admitGroup id members)) _ w from
    (Within.tick_bind hrest).mono (by omega)
  split
  · exact (costs_free ((frame_pays n).throw _)).mono (Nat.zero_le _)
  · rename_i i g hbuild
    have hlen := length_members_le w.plain hbuild
    exact (costs_admitCommit i g).mono (by omega)

omit [DecidableEq I] [DecidableEq M] in
theorem pays_showGroup (o : Option Handle) : Keeps (Pays n) (showGroup (I := I) (M := M) o) := by
  cases o with
  | none => exact (frame_pays n).pure _
  | some h => exact (frame_pays n).bind (frame_pays n).get fun _ => (frame_pays n).pure _

omit [DecidableEq I] [DecidableEq M] in
theorem pays_showGroups (hs : List Handle) :
    Keeps (Pays n) (showGroups (I := I) (M := M) hs) :=
  (frame_pays n).bind (frame_pays n).get fun _ => (frame_pays n).pure _

/-- What one call costs, besides what its writes to the heap pay for. -/
theorem costs_perform (hw : Fits n w) (op : Op I M) :
    Costs n (30 + 30 * w.plain.handled op) (perform op) w := by
  have hgroup : ∀ {k} {x : Method I M (Option Handle)}, Costs n k x w →
      k ≤ 30 + 30 * w.plain.handled op →
      Costs n (30 + 30 * w.plain.handled op) (x >>= fun o => free (showGroup o)) w := by
    intro k x hx hk
    exact Within.mono (Within.bind hx fun _ _ _ => costs_free (pays_showGroup _)) hk
  have hgroups : ∀ {k} {x : Method I M (List Handle)}, Costs n k x w →
      k ≤ 30 + 30 * w.plain.handled op →
      Costs n (30 + 30 * w.plain.handled op) (x >>= fun hs => free (showGroups hs)) w := by
    intro k x hx hk
    exact Within.mono (Within.bind hx fun _ _ _ => costs_free (pays_showGroups _)) hk
  have hvalue : ∀ {α k} {x : Method I M α} {f : α → Answer I M}, Costs n k x w →
      k ≤ 30 + 30 * w.plain.handled op →
      Costs n (30 + 30 * w.plain.handled op) (x >>= fun a => pure (f a)) w := by
    intro α k x f hx hk
    exact Within.mono (Within.bind hx fun _ _ _ => Within.pure _) hk
  cases op with
  | admitGroup id members =>
    have hadmit := costs_admitGroup (n := n) (w := w) id members
    exact Within.mono (Within.bind hadmit fun _ _ _ => costs_free (pays_showGroup _)) (by omega)
  | markReady member => exact hvalue (costs_markReady hw member) (by omega)
  | markGroupReady id =>
    refine hvalue (costs_markGroupReady hw id) ?_
    rw [PlainQueue.handled]
    omega
  | groupOf member => exact hgroup (costs_groupOf member) (by omega)
  | cancel id =>
    have hcancel := costs_cancel hw id
    refine Within.mono (Within.bind hcancel fun _ _ _ => costs_free (pays_showGroup _)) ?_
    rw [PlainQueue.handled]
    omega
  | clear =>
    refine hgroups (costs_clear hw) ?_
    rw [PlainQueue.handled]
    omega
  | peek => exact hgroup (costs_peek hw.heap) (by omega)
  | release =>
    refine hgroup (costs_release hw) ?_
    rw [PlainQueue.handled]
    omega
  | releaseAll =>
    refine hgroups (costs_releaseAll hw) ?_
    rw [PlainQueue.handled]
  | groups =>
    have hlen := length_memberIndex_le hw.consistent
    refine hgroups (k := 1 + (w.groups.length + 1 + 0)) (x := waitingGroups) ?_ ?_
    · refine Within.tick_bind ?_
      exact Within.bind (costs_charge (Nat.le_refl _) (frame_pays n).get) fun _ _ _ =>
        Within.pure _
    · rw [PlainQueue.handled]
      omega
  | len =>
    have hlen : Costs n 1 (len (I := I) (M := M)) w := costs_get_bind (k := 0) (Within.pure _)
    exact hvalue hlen (by omega)
  | contains member =>
    have hcontains : Costs n 3 (contains (I := I) member) w := by
      cases member with
      | unhashable t => exact Within.tick_bind (m := 0) (Within.pure _)
      | hashable m =>
        exact (costs_get_bind (k := 0) (Within.pure _)).mono (Nat.le_add_left 1 2)
    exact hvalue hcontains (by omega)
  | groupMarkReady h member =>
    exact hvalue (costs_groupMarkReady hw.heap h member) (by omega)

end Priced

/-- A strict queue never makes an entry in its heap. -/
def Idle (w : World I M) : Prop := w.strictOrder = true → w.total Write.pushes = 0

theorem Move.idle {w w' : World I M} (h : Move w w') (hw : Consistent w) (hi : Idle w) :
    Idle w' := by
  cases h with
  | @mark k g m hg hm =>
    intro hs
    rw [World.marked] at hs ⊢
    split at hs
    · rename_i hc
      have hcallback := hw.callback
      have hcarried := hw.carried k g hg
      rw [if_pos (show w.strictOrder = true from hs)] at hcallback
      rw [hcallback, hc.2, ite_self] at hcarried
      cases hcarried
    · rename_i hc
      rw [if_neg hc]
      exact hi hs
  | @remove id k g hid hg =>
    intro hs
    have hkeys : k ∉ w.readyGroups.keys → (w.removed id k g).total Write.pushes = 0 := by
      intro hk
      rw [World.removed, if_neg hk] at hs ⊢
      rw [(withdrawn_totals w id hg).2.2.1]
      exact hi hs
    refine hkeys fun hk => ?_
    obtain ⟨k', hk'⟩ := Dict.mem_keys_iff.mp hk
    have hrelaxed := ((hw.readied k k').mp hk').1
    have hsame : (w.removed id k g).strictOrder = w.strictOrder :=
      congrArg PlainQueue.strictOrder (plain_removed hw.toRegistered hid hg)
    rw [hsame, hrelaxed] at hs
    cases hs
  | clear =>
    intro hs
    rw [World.total_append (w := w) rfl, hi hs]
    rfl
  | @pop top rest hh hstale =>
    intro hs
    have hempty := hw.heap_strict hs
    rw [hh] at hempty
    cases hempty

theorem step_idle {w : World I M} (hw : Consistent w) (hi : Idle w) (op : Op I M) :
    Idle (step w op).2 := by
  have hmoves : ∀ {u}, Moves w u → Idle u := by
    intro u h
    induction h with
    | refl => exact hi
    | tail hm h ih => exact h.idle (Moves.consistent hm hw) ih
  have hevolves := (step_simulated hw op).evolves
  cases op with
  | admitGroup =>
    rcases hevolves with hsame | harrival
    · rw [hsame]
      exact hi
    · generalize (step w _).2 = w' at harrival
      cases harrival with
      | @commit id g =>
        intro hs
        have hfree : ∀ e ∈ .setGroup id w.objects.length :: g.members.map (Write.setMember · id),
            e.Free := by
          intro e he
          rcases List.mem_cons.mp he with rfl | he
          · exact ⟨rfl, rfl, rfl⟩
          · obtain ⟨m, _, rfl⟩ := List.mem_map.mp he
            exact ⟨rfl, rfl, rfl⟩
        rw [(World.total_free (w := w) rfl hfree).2.2]
        exact hi hs
  | _ => exact hmoves hevolves

omit [DecidableEq I] [DecidableEq M] in
/-- Each complete group pays for its entry, and for what is done to be rid of it. -/
theorem PaidFor.account_le {w : World I M} (hp : PaidFor w) (n : Nat) :
    w.account n ≤ w.objects.countP Group.isReady * (3 * levels n + 7) := by
  have hpaid := hp.paid
  have howed := hp.owed
  calc w.account n
      = (levels n + 2) * w.total Write.pushes +
          ((2 * levels n + 5) * w.total Write.pops + 4 * w.total Write.rebuilds) := by
        rw [w.account_eq, Nat.add_assoc]
    _ ≤ (levels n + 2) * w.total Write.pushes +
          ((2 * levels n + 5) * w.total Write.pops +
            (2 * levels n + 5) * w.total Write.rebuilds) := by
        gcongr
        omega
    _ = (levels n + 2) * w.total Write.pushes +
          (2 * levels n + 5) * (w.total Write.pops + w.total Write.rebuilds) := by
        rw [Nat.mul_add (2 * levels n + 5)]
    _ ≤ (levels n + 2) * w.objects.countP Group.isReady +
          (2 * levels n + 5) * w.objects.countP Group.isReady := by
        gcongr
        omega
    _ = w.objects.countP Group.isReady * (3 * levels n + 7) := by
        rw [← Nat.add_mul, Nat.mul_comm]
        congr 1
        omega

omit [DecidableEq I] [DecidableEq M] in
theorem Idle.account_eq {w : World I M} (hi : Idle w) (hp : PaidFor w) (hs : w.strictOrder = true)
    (n : Nat) : w.account n = 0 := by
  have hpaid := hp.paid
  rw [hi hs] at hpaid
  have hpops : w.total Write.pops = 0 := by omega
  have hrebuilds : w.total Write.rebuilds = 0 := by omega
  rw [w.account_eq, hi hs, hpops, hrebuilds]
  simp only [Nat.mul_zero]

theorem steps_perform_le {n : Nat} {w : World I M} (hw : Fits n w) (op : Op I M) :
    steps (Priced.perform op) w + w.account n ≤
      30 + 30 * w.plain.handled op + (step w op).2.account n := by
  have hcosts := Priced.costs_perform hw op
  have hafter : after (perform op) w = (step w op).2 := by
    rw [after, step, attempt]
    cases (perform op).run w with
    | ok a t => rfl
    | error e t => rfl
  rw [Priced.Costs, Within, Priced.unmetered_perform, hafter] at hcosts
  exact hcosts

section

omit [DecidableEq I]

theorem le_duplicatesSteps {seen duplicates ms : List M} (hseen : ∀ m ∈ ms, m ∈ seen)
    (hnd : (duplicates ++ ms).Nodup) :
    ms.length * (2 * duplicates.length + ms.length) ≤
      2 * Priced.duplicatesSteps seen duplicates ms := by
  induction ms generalizing seen duplicates with
  | nil => simp
  | cons m ms ih =>
    have hm : m ∈ seen := hseen m List.mem_cons_self
    have hnew : m ∉ duplicates := fun h =>
      (List.nodup_append.mp hnd).2.2 m h m List.mem_cons_self rfl
    have hmore : ∀ a ∈ ms, a ∈ m :: seen :=
      fun a ha => List.mem_cons_of_mem m (hseen a (List.mem_cons_of_mem m ha))
    have hrest := @ih (m :: seen) (duplicates ++ [m]) hmore (by rwa [List.append_assoc])
    rw [Priced.duplicatesSteps, if_pos ⟨hm, hnew⟩, if_pos hm, if_pos ⟨hm, hnew⟩,
      List.idxOf_of_notMem hnew, Nat.min_eq_right (Nat.le_succ _), List.length_cons]
    rw [List.length_append, List.length_singleton] at hrest
    calc (ms.length + 1) * (2 * duplicates.length + (ms.length + 1))
        = ms.length * (2 * (duplicates.length + 1) + ms.length) + (2 * duplicates.length + 1) := by
          ring
      _ ≤ _ := by omega

theorem duplicatesSteps_append_le {seen ms rest : List M} (hseen : ∀ m ∈ ms, m ∉ seen)
    (hnd : ms.Nodup) : Priced.duplicatesSteps (ms.reverse ++ seen) [] rest ≤
      Priced.duplicatesSteps seen [] (ms ++ rest) := by
  induction ms generalizing seen with
  | nil => exact Nat.le_refl _
  | cons m ms ih =>
    obtain ⟨hm, hnd⟩ := List.nodup_cons.mp hnd
    have hnew : m ∉ seen := hseen m List.mem_cons_self
    have hmore : ∀ a ∈ ms, a ∉ m :: seen := by
      intro a ha
      rw [List.mem_cons, not_or]
      exact ⟨fun he => hm (he ▸ ha), hseen a (List.mem_cons_of_mem m ha)⟩
    have hrest := ih hmore hnd
    rw [List.cons_append, Priced.duplicatesSteps, if_neg fun h => hnew h.1, List.reverse_cons,
      List.append_assoc, List.singleton_append]
    omega

end

/-- The search for duplicates is quadratic: every member given twice is looked for in a list. -/
theorem le_steps_of_duplicates (id : Value I) {ms : List M} (hnd : ms.Nodup) (w : World I M) :
    ms.length * ms.length ≤ 2 * steps (Priced.perform
      (.admitGroup id (.iterable ((ms ++ ms).map .hashable)))) w := by
  by_cases hnil : ms = []
  · rw [hnil]
    exact Nat.zero_le _
  have hhalf : Priced.duplicatesSteps (ms.reverse ++ []) [] ms ≤
      Priced.duplicatesSteps [] [] (ms ++ ms) := duplicatesSteps_append_le (by simp) hnd
  have hagain : ∀ m ∈ ms, m ∈ ms.reverse ++ [] := fun m hm => by simpa using hm
  have hloop := (le_duplicatesSteps hagain (List.nil_append ms ▸ hnd)).trans
    (Nat.mul_le_mul_left 2 hhalf)
  have hne : (ms ++ ms).map Value.hashable ≠ [] := by simp [hnil]
  have hdup : ¬ (Dict.fromkeys (ms ++ ms) false).length =
      ((ms ++ ms).map Value.hashable).length := by
    rw [List.length_map, Dict.length_fromkeys_iff]
    intro hnodup
    obtain ⟨m, hm⟩ := List.exists_mem_of_ne_nil ms hnil
    exact (List.nodup_append.mp hnodup).2.2 m hm m hm rfl
  have hinit : Priced.duplicatesSteps [] [] (ms ++ ms) ≤
      Priced.initSteps (.iterable ((ms ++ ms).map .hashable)) := by
    rw [Priced.initSteps, if_neg hne, hashAll_eq_some.mpr rfl]
    dsimp only
    rw [if_neg hdup]
    omega
  generalize Members.iterable ((ms ++ ms).map Value.hashable) = members at hinit
  have hbuild : Priced.initSteps members ≤ Priced.buildSteps id members := by
    unfold Priced.buildSteps
    split
    · exact Nat.le_add_right _ _
    · exact Nat.le_add_right _ _
    · exact Nat.le_add_right _ _
  have hcall : Priced.buildSteps id members ≤ steps (Priced.perform (.admitGroup id members)) w :=
    calc Priced.buildSteps id members
        = steps (tick (Priced.buildSteps id members) : Priced.Method I M Unit) w := rfl
      _ ≤ steps (Priced.admitGroup id members) w := le_steps_bind _ _ w
      _ ≤ steps (Priced.perform (.admitGroup id members)) w := le_steps_bind _ _ w
  rw [List.length_nil, Nat.mul_zero, Nat.zero_add] at hloop
  omega

omit [DecidableEq I] in
theorem steps_readyMembers {w : World I M} {h : Handle} {g : Group I M}
    (hg : w.objects[h]? = some g) : steps (Priced.readyMembers h) w = g.members.length + 3 ∧
      steps (Priced.waitingMembers h) w = g.members.length + 3 := by
  have hderef : (unmetered (once (deref h))).run w = .ok g w := deref_run hg
  constructor
  · rw [Priced.readyMembers, steps_bind_of_ok (t := w) rfl, steps_bind_of_ok hderef,
      steps_bind_of_ok (t := w) rfl]
    change 2 + (1 + (g.members.length + 0)) = g.members.length + 3
    omega
  · rw [Priced.waitingMembers, steps_bind_of_ok (t := w) rfl, steps_bind_of_ok hderef,
      steps_bind_of_ok (t := w) rfl]
    change 2 + (1 + (g.members.length + 0)) = g.members.length + 3
    omega

/-- The calls of any run take no more steps than a fixed number each and for each group and member
that they deal with, and beyond that only what the entries of complete groups in the heap take,
which is logarithmic in the number of groups that wait at one time. Under strict order there are
none of these, so that the bound holds for every single call. That a refused admission may take
more than a fixed number of steps for each member given is so: the search for duplicates is
quadratic. The members of a group that are ready, or are not, take three steps and one for each
member. No step is left out that matters to threads: they have no more accesses to make for a call,
and no more locks to take, than it has steps. -/
theorem steps_amortized (strictOrder : Bool) (ops : List (Op I M)) :
    let start : World I M := World.init strictOrder
    let w := final step start ops
    let n := peak step (fun w => w.groups.length) start ops
    (∀ op : Op I M, unmetered (Priced.perform op) = perform op) ∧
      (∀ (op : Op I M) (u : World I M),
        (Request.method (.op op)).moves u ≤ steps (Priced.perform op) u) ∧
      summed step (fun w op => steps (Priced.perform op) w) start ops ≤
        summed step (fun w op => 30 + 30 * w.plain.handled op) start ops +
          (if strictOrder then 0
            else w.objects.countP Group.isReady * (3 * Nat.log 2 (2 * n + 9) + 7)) ∧
      (strictOrder = true → ∀ op, steps (Priced.perform op) w ≤ 30 + 30 * w.plain.handled op) ∧
      (∀ (id : Value I) (ms : List M), ms.Nodup → ms.length * ms.length ≤
        2 * steps (Priced.perform (.admitGroup id (.iterable ((ms ++ ms).map .hashable)))) w) ∧
      ∀ h : Handle, unmetered (Priced.readyMembers (I := I) (M := M) h) =
          Group.readyMembers <$> deref h ∧
        unmetered (Priced.waitingMembers (I := I) (M := M) h) = Group.waitingMembers <$> deref h ∧
        (∀ u : World I M,
          (Request.method (.readyMembers h)).moves u ≤ steps (Priced.readyMembers h) u ∧
            (Request.method (.waitingMembers h)).moves u ≤ steps (Priced.waitingMembers h) u) ∧
        ∀ g, w.objects[h]? = some g → steps (Priced.readyMembers h) w = g.members.length + 3 ∧
          steps (Priced.waitingMembers h) w = g.members.length + 3 := by
  intro start w n
  let R (w : World I M) : Prop := Consistent w ∧ PaidFor w ∧ Idle w
  have hstart : R start := ⟨init_consistent strictOrder, init_paidFor strictOrder, fun _ => rfl⟩
  have hstep : ∀ w op, R w → R (step w op).2 := by
    rintro w op ⟨hw, hp, hi⟩
    exact ⟨step_consistent hw op, (step_simulated hw op).evolves.paidFor hw hp, step_idle hw hi op⟩
  obtain ⟨hw, hp, hi⟩ : R w := invariant hstep hstart ops
  have hpolicy : w.strictOrder = strictOrder := final_strictOrder strictOrder ops
  refine ⟨Priced.unmetered_perform, Priced.moves_le_steps, ?_, fun hs op => ?_, fun id ms hnd =>
    le_steps_of_duplicates id hnd w, fun h => ⟨Priced.unmetered_readyMembers h,
      Priced.unmetered_waitingMembers h, Priced.moves_le_steps_members h,
      fun g hg => steps_readyMembers hg⟩⟩
  · have hcall : ∀ w op, R w → w.groups.length ≤ n → steps (Priced.perform op) w + w.account n ≤
        30 + 30 * w.plain.handled op + (step w op).2.account n :=
      fun w op hR hwaiting => steps_perform_le ⟨hR.1, hR.2.1, hwaiting⟩ op
    have hsum := summed_le hstep hcall hstart (along_peak step (fun w => w.groups.length) start ops)
    have haccount : w.account n ≤ if strictOrder then 0
        else w.objects.countP Group.isReady * (3 * Nat.log 2 (2 * n + 9) + 7) := by
      split
      · rename_i hs
        exact Nat.le_of_eq (hi.account_eq hp (hpolicy.trans hs) n)
      · exact hp.account_le n
    exact (Nat.le_add_right _ _).trans (hsum.trans (Nat.add_le_add_left haccount _))
  · have hcall := steps_perform_le ⟨hw, hp, Nat.le_refl _⟩ op
    obtain ⟨hw', hp', hi'⟩ := hstep w op ⟨hw, hp, hi⟩
    have hpolicy' : (step w op).2.strictOrder = true :=
      (step_conserved hw op).policy.trans (hpolicy.trans hs)
    rw [hi.account_eq hp (hpolicy.trans hs), hi'.account_eq hp' hpolicy'] at hcall
    exact hcall

example : steps (Priced.perform (.admitGroup (.hashable 7) (.iterable [.hashable 1, .hashable 2])))
    (World.init true : World Nat Nat) = 38 := by decide

example : steps (Priced.perform .clear) (World.init true : World Nat Nat) = 8 := by decide

end Tito
