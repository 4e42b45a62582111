import Tito.Line
import Mathlib.Algebra.GroupWithZero.Nat

namespace Tito

open Lib Lib.Heapq Lib.Mealy

variable {I M : Type}

/-- An entry that `_note_ready` pushes. -/
def Write.pushes : Write I M → Nat
  | .push _ => 1
  | _ => 0

/-- A stale entry that `peek` pops. -/
def Write.pops : Write I M → Nat
  | .popStale _ => 1
  | _ => 0

/-- The entries that a compaction rebuilds the heap from. -/
def Write.rebuilds : Write I M → Nat
  | .rebuild entries => entries
  | _ => 0

/-- What all index writes of the run so far cost together. -/
def World.total (w : World I M) (cost : Write I M → Nat) : Nat := (w.trace.map cost).sum

theorem World.total_append {w w' : World I M} {es : List (Write I M)}
    (h : w'.trace = w.trace ++ es) (cost : Write I M → Nat) :
    w'.total cost = w.total cost + (es.map cost).sum := by
  rw [World.total, h, List.map_append, List.sum_append, World.total]

/-- A write that concerns neither the heap's growth nor its clean-up. -/
def Write.Free (e : Write I M) : Prop := e.rebuilds = 0 ∧ e.pops = 0 ∧ e.pushes = 0

theorem World.total_free {w w' : World I M} {es : List (Write I M)}
    (h : w'.trace = w.trace ++ es) (hes : ∀ e ∈ es, e.Free) :
    w'.total Write.rebuilds = w.total Write.rebuilds ∧
      w'.total Write.pops = w.total Write.pops ∧ w'.total Write.pushes = w.total Write.pushes := by
  have ht : ∀ cost : Write I M → Nat, (∀ e ∈ es, cost e = 0) → w'.total cost = w.total cost := by
    intro cost hc
    have hz : (es.map cost).sum = 0 := by
      refine List.sum_eq_zero_iff_forall_eq_nat.mpr fun c hm => ?_
      obtain ⟨e, he, rfl⟩ := List.mem_map.mp hm
      exact hc e he
    rw [World.total_append h, hz, Nat.add_zero]
  exact ⟨ht _ fun e he => (hes e he).1, ht _ fun e he => (hes e he).2.1,
    ht _ fun e he => (hes e he).2.2⟩

/-- The heap is bounded by its live entries. Its entries, and all clean-up so far, are paid for
by pushes, of which each ready group accounts for one. -/
structure PaidFor (w : World I M) : Prop where
  bounded : w.readyHeap.length ≤ 2 * w.readyGroups.length + 8
  paid : w.total Write.rebuilds + w.total Write.pops + w.readyHeap.length ≤ w.total Write.pushes
  owed : w.total Write.pushes ≤ w.objects.countP Group.isReady

theorem init_paidFor (strictOrder : Bool) : PaidFor (World.init strictOrder : World I M) where
  bounded := Nat.zero_le _
  paid := Nat.le_refl _
  owed := Nat.le_refl _

variable [DecidableEq I] [DecidableEq M]

theorem marked_paidFor {w : World I M} (hw : Consistent w) (hp : PaidFor w) {h : Handle}
    {g : Group I M} (hg : w.objects[h]? = some g) {m : M} (hm : g.ready.get? m = some false) :
    PaidFor (w.marked h g m hm) := by
  have hunready := isReady_of_get?_false hm
  obtain ⟨hlt, hge⟩ := List.getElem?_eq_some_iff.mp hg
  have hcount : (w.objects.set h (g.flag m hm)).countP Group.isReady =
      w.objects.countP Group.isReady + if (g.flag m hm).isReady = true then 1 else 0 := by
    rw [List.countP_set hlt, hge, hunready]
    simp
  have hnot := not_mem_readyGroups hw.toReadyIndexed hg hunready
  rw [World.marked]
  split
  · rename_i hc
    rw [if_pos hc.1] at hcount
    have hlen := Dict.length_set_of_not_mem hnot h
    have hheap := (heappush_perm w.readyHeap h).length_eq
    have ht : ∀ cost, ((w.flagged h g m hm).noted h).total cost =
        w.total cost + ([Write.setReady h h, Write.push h].map cost).sum :=
      World.total_append rfl
    rw [List.length_cons] at hheap
    obtain ⟨hb, hpaid, howed⟩ := hp
    refine ⟨?_, ?_, ?_⟩
    · simp only [World.noted, World.flagged, hlen, hheap]
      omega
    · rw [ht, ht, ht]
      simp only [World.noted, World.flagged, hheap, List.map_cons, List.map_nil, Write.rebuilds,
        Write.pops, Write.pushes, List.sum_cons, List.sum_nil]
      omega
    · rw [ht]
      simp only [World.noted, World.flagged, hcount, List.map_cons, List.map_nil, Write.pushes,
        List.sum_cons, List.sum_nil]
      omega
  · refine ⟨hp.bounded, hp.paid, Nat.le_trans hp.owed ?_⟩
    simp only [World.flagged, hcount]
    omega

theorem withdrawn_totals (w : World I M) (id : I) {h : Handle} {g : Group I M}
    (hg : w.objects[h]? = some g) :
    (w.withdrawn id h g).total Write.rebuilds = w.total Write.rebuilds ∧
      (w.withdrawn id h g).total Write.pops = w.total Write.pops ∧
      (w.withdrawn id h g).total Write.pushes = w.total Write.pushes ∧
      (w.withdrawn id h g).objects.countP Group.isReady = w.objects.countP Group.isReady := by
  have hfree : ∀ e ∈ .delGroup id :: g.members.map .delMember ++
      (if h ∈ w.readyGroups.keys then [Write.popReady h] else []), e.Free := by
    intro e he
    rcases List.mem_append.mp he with he | he
    · rcases List.mem_cons.mp he with rfl | he
      · exact ⟨rfl, rfl, rfl⟩
      · obtain ⟨m, _, rfl⟩ := List.mem_map.mp he
        exact ⟨rfl, rfl, rfl⟩
    · split at he
      · rw [List.mem_singleton.mp he]
        exact ⟨rfl, rfl, rfl⟩
      · cases he
  have htrace : (w.withdrawn id h g).trace = w.trace ++ _ := List.append_assoc ..
  obtain ⟨hreb, hpop, hpush⟩ := World.total_free htrace hfree
  refine ⟨hreb, hpop, hpush, ?_⟩
  obtain ⟨hlt, hge⟩ := List.getElem?_eq_some_iff.mp hg
  have hpos : w.objects[h].isReady = true → 0 < w.objects.countP Group.isReady := fun hr =>
    List.countP_pos_iff.mpr ⟨_, List.getElem_mem hlt, hr⟩
  have hd : g.detached.isReady = w.objects[h].isReady := by rw [hge]; rfl
  rw [World.withdrawn]
  dsimp only
  rw [List.countP_set hlt, hd]
  split
  · rename_i hr
    have := hpos hr
    omega
  · omega

theorem removed_paidFor {w : World I M} (hp : PaidFor w) {id : I} {h : Handle} {g : Group I M}
    (hg : w.objects[h]? = some g) : PaidFor (w.removed id h g) := by
  obtain ⟨hb, hpaid, howed⟩ := hp
  obtain ⟨hreb, hpop, hpush, hcount⟩ := withdrawn_totals w id hg
  have hheap : (w.withdrawn id h g).readyHeap = w.readyHeap := rfl
  rw [World.removed]
  split
  · rw [World.compacted]
    split
    · rename_i hl
      exact ⟨hl, by rw [hreb, hpop, hpush, hheap]; exact hpaid, by rw [hpush, hcount]; exact howed⟩
    · rename_i hl
      have hlen := (heapify_perm (w.withdrawn id h g).readyGroups.keys).length_eq
      rw [Dict.length_keys] at hlen
      rw [hheap] at hl
      have ht : ∀ cost, (World.wrote { w.withdrawn id h g with
          readyHeap := heapify (w.withdrawn id h g).readyGroups.keys }
          (.rebuild (w.withdrawn id h g).readyGroups.length)).total cost =
          (w.withdrawn id h g).total cost +
            cost (.rebuild (w.withdrawn id h g).readyGroups.length) := by
        intro cost
        rw [World.total_append (show _ = (w.withdrawn id h g).trace ++ _ from rfl)]
        simp
      refine ⟨?_, ?_, ?_⟩
      · simp only [World.wrote, hlen]
        omega
      · rw [ht, ht, ht, hreb, hpop, hpush]
        simp only [World.wrote, hlen, Write.rebuilds, Write.pops, Write.pushes]
        omega
      · rw [ht, hpush]
        simp only [World.wrote, Write.pushes, hcount]
        exact howed
  · rename_i hk
    have hsame : (w.withdrawn id h g).readyGroups = w.readyGroups := Dict.erase_of_not_mem hk
    exact ⟨by rw [hsame, hheap]; exact hb, by rw [hreb, hpop, hpush, hheap]; exact hpaid,
      by rw [hpush, hcount]; exact howed⟩

theorem Move.paidFor {w w' : World I M} (hmv : Move w w') (hw : Consistent w) (hp : PaidFor w) :
    PaidFor w' := by
  cases hmv with
  | mark hg hm => exact marked_paidFor hw hp hg hm
  | remove hid hg => exact removed_paidFor hp hg
  | clear =>
    have ht : ∀ cost, w.cleared.total cost = w.total cost +
        ([.clearGroups, .clearMembers, .clearReady, .clearHeap].map cost).sum :=
      World.total_append rfl
    refine ⟨Nat.zero_le _, ?_, ?_⟩
    · rw [ht, ht, ht]
      exact Nat.le_trans (Nat.le_add_right _ w.readyHeap.length) hp.paid
    · rw [ht, World.cleared, List.countP_map]
      exact hp.owed
  | @pop top rest hh hs =>
    have ht : ∀ cost, (w.popped top).total cost = w.total cost + ([.popStale top].map cost).sum :=
      World.total_append rfl
    have hlen : (w.popped top).readyHeap.length + 1 = w.readyHeap.length := by
      rw [World.popped, World.wrote]
      dsimp only
      rw [hh, (heappop_perm top rest).length_eq, List.length_cons]
    obtain ⟨hb, hpaid, howed⟩ := hp
    refine ⟨?_, ?_, ?_⟩
    · have hr : (w.popped top).readyGroups = w.readyGroups := rfl
      rw [hr]
      omega
    · rw [ht, ht, ht]
      simp only [List.map_cons, List.map_nil, Write.rebuilds, Write.pops, Write.pushes,
        List.sum_cons, List.sum_nil]
      omega
    · rw [ht]
      exact howed

theorem Arrival.paidFor {w w' : World I M} (h : Arrival w w') (hp : PaidFor w) : PaidFor w' := by
  obtain ⟨hgid, hready, hid, hms⟩ := h
  rename_i id g
  have hfree : ∀ e ∈ .setGroup id w.objects.length :: g.members.map (Write.setMember · id),
      e.Free := by
    intro e he
    rcases List.mem_cons.mp he with rfl | he
    · exact ⟨rfl, rfl, rfl⟩
    · obtain ⟨m, _, rfl⟩ := List.mem_map.mp he
      exact ⟨rfl, rfl, rfl⟩
  obtain ⟨hreb, hpop, hpush⟩ :=
    World.total_free (show (w.admitted id g).trace = w.trace ++ _ from rfl) hfree
  refine ⟨hp.bounded, by rw [hreb, hpop, hpush]; exact hp.paid, ?_⟩
  rw [hpush, World.admitted]
  dsimp only
  rw [List.countP_append]
  exact Nat.le_trans hp.owed (Nat.le_add_right _ _)

theorem Evolves.paidFor {op : Op I M} {w w' : World I M} (h : Evolves op w w')
    (hw : Consistent w) (hp : PaidFor w) : PaidFor w' := by
  have moves : ∀ {u}, Moves w u → Consistent u ∧ PaidFor u := by
    intro u hm
    induction hm with
    | refl => exact ⟨hw, hp⟩
    | tail _ hm ih => exact ⟨hm.consistent ih.1, hm.paidFor ih.1 ih.2⟩
  cases op with
  | admitGroup =>
    rcases h with rfl | ha
    · exact hp
    · exact ha.paidFor hp
  | _ => exact (moves h).2

theorem run_paidFor {w : World I M} (hw : Consistent w) (hp : PaidFor w) (ops : List (Op I M)) :
    PaidFor (final step w ops) := by
  induction ops generalizing w with
  | nil => exact hp
  | cons op ops ih =>
    exact ih (step_consistent hw op) ((step_simulated hw op).evolves.paidFor hw hp)

omit [DecidableEq I] [DecidableEq M] in
theorem ReadyIndexed.length_readyGroups_le {w : World I M} (hw : ReadyIndexed w) :
    w.readyGroups.length ≤ w.groups.length := by
  have hsub : w.readyGroups.keys ⊆ w.groups.values := by
    intro s hs
    obtain ⟨h, hh⟩ := Dict.mem_keys_iff.mp hs
    obtain ⟨_, rfl, hwait, _⟩ := (hw.readied s h).mp hh
    exact hwait
  have hnd : w.readyGroups.keys.Nodup := w.readyGroups.nodup
  rw [← Dict.length_keys, ← Dict.length_values]
  exact (List.subperm_of_subset hnd hsub).length_le

/-- In every run the heap is bounded by twice the live entries and eight more, and compactions
and lazy pops together handle at most as many entries as were pushed: one for each group. -/
theorem heap_bounded_and_paid_for (strictOrder : Bool) (ops : List (Op I M)) :
    let w := final step (World.init strictOrder) ops
    w.readyHeap.length ≤ 2 * w.readyGroups.length + 8 ∧
      w.readyGroups.length ≤ w.groups.length ∧
      w.total Write.rebuilds + w.total Write.pops ≤ w.total Write.pushes ∧
      w.total Write.pushes ≤ (collected step admitted (World.init strictOrder) ops).length := by
  intro w
  have hw : Consistent w := consistent_of_reachable ⟨ops, rfl⟩
  have hp : PaidFor w := run_paidFor (init_consistent strictOrder) (init_paidFor strictOrder) ops
  have hseq : (collected step admitted (World.init strictOrder) ops).length = w.sequence := by
    rw [← List.length_map, handles_admitted, List.length_range]
  have hcount : w.objects.countP Group.isReady ≤ w.objects.length := List.countP_le_length
  obtain ⟨hb, hpaid, howed⟩ := hp
  refine ⟨hb, hw.length_readyGroups_le, by omega, ?_⟩
  rw [hw.counted] at hcount
  omega

end Tito
