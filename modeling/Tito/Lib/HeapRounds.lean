import Tito.Lib.Heapq
import Mathlib.Algebra.Order.Ring.GeomSum
import Mathlib.Data.Nat.Log

namespace Tito.Lib.Heapq

variable {α : Type} [LinearOrder α]

def siftdownRounds (startpos : Nat) (newitem : α) (heap : List α) (pos : Nat) : Nat :=
  if startpos < pos then
    match heap[parent pos]? with
    | some up =>
      if newitem < up then siftdownRounds startpos newitem (heap.set pos up) (parent pos) + 1 else 1
    | none => 1
  else 0
termination_by pos
decreasing_by unfold parent; omega

/-- How often the loops of `siftup` go round, the one in its `siftdown` included. -/
def siftupRounds (startpos : Nat) (newitem : α) (heap : List α) (pos : Nat) : Nat :=
  match _h : heap[minChild heap pos]? with
  | some child => siftupRounds startpos newitem (heap.set pos child) (minChild heap pos) + 1
  | none => siftdownRounds startpos newitem heap pos
termination_by heap.length - pos
decreasing_by
  have hc := (List.getElem?_eq_some_iff.mp _h).1
  have hm := minChild_eq heap pos
  rw [List.length_set]
  omega

def heappushRounds (heap : List α) (item : α) : Nat :=
  siftdownRounds 0 item (heap ++ [item]) heap.length

def heappopRounds (heap : List α) : Nat :=
  match heap.getLast? with
  | none => 0
  | some lastelt => if heap.dropLast = [] then 0 else siftupRounds 0 lastelt heap.dropLast 0

def siftupAtRounds (heap : List α) (pos : Nat) : Nat :=
  match heap[pos]? with
  | some newitem => siftupRounds pos newitem heap pos
  | none => 0

def heapifyFromRounds : Nat → List α → Nat
  | 0, _ => 0
  | i + 1, heap => heapifyFromRounds i (siftupAt heap i) + siftupAtRounds heap i + 1

def heapifyRounds (heap : List α) : Nat := heapifyFromRounds (heap.length / 2) heap

theorem log_eq_succ_of_le {m : Nat} (h : 2 ≤ m) : Nat.log 2 m = Nat.log 2 (m / 2) + 1 :=
  Nat.log_of_one_lt_of_le (by omega) h

/-- On its way up from `pos` an item halves its place in every round, down to that of `startpos`. -/
theorem siftdownRounds_le (startpos : Nat) (newitem : α) (heap : List α) (pos : Nat) :
    siftdownRounds startpos newitem heap pos ≤ Nat.log 2 ((pos + 1) / (startpos + 1)) + 1 := by
  induction heap, pos using siftdownRounds.induct startpos newitem with
  | case1 heap pos hpos up hup hlt ih =>
    rw [siftdownRounds, if_pos hpos, hup]
    dsimp only
    rw [if_pos hlt]
    by_cases hp : startpos < parent pos
    · have htwo : 2 ≤ (pos + 1) / (startpos + 1) := by
        unfold parent at hp
        rw [Nat.le_div_iff_mul_le (Nat.succ_pos startpos)]
        omega
      have hhalf : (parent pos + 1) / (startpos + 1) = (pos + 1) / (startpos + 1) / 2 := by
        rw [Nat.div_right_comm]
        congr 1
        unfold parent
        omega
      rw [log_eq_succ_of_le htwo, ← hhalf]
      omega
    · rw [siftdownRounds, if_neg hp]
      omega
  | case2 heap pos hpos up hup hlt =>
    rw [siftdownRounds, if_pos hpos, hup]
    dsimp only
    rw [if_neg hlt]
    omega
  | case3 heap pos hpos hup =>
    rw [siftdownRounds, if_pos hpos, hup]
    exact Nat.le_add_left 1 _
  | case4 heap pos hpos =>
    rw [siftdownRounds, if_neg hpos]
    omega

/-- On its way down the hole doubles its place in every round, and the item that fills it rises no
further than that again. -/
theorem siftupRounds_le (startpos : Nat) (newitem : α) (heap : List α) (pos : Nat)
    (hpos : pos < heap.length) : siftupRounds startpos newitem heap pos ≤
      Nat.log 2 (heap.length / (pos + 1)) + Nat.log 2 (heap.length / (startpos + 1)) + 1 := by
  induction heap, pos using siftupRounds.induct with
  | case1 heap pos child hc ih =>
    have hm := minChild_eq heap pos
    have hl := (List.getElem?_eq_some_iff.mp hc).1
    have htwo : 2 ≤ heap.length / (pos + 1) := by
      rw [Nat.le_div_iff_mul_le (Nat.succ_pos pos)]
      omega
    have hhalf : Nat.log 2 (heap.length / (minChild heap pos + 1)) ≤
        Nat.log 2 (heap.length / (pos + 1) / 2) := by
      refine Nat.log_mono_right ?_
      rw [Nat.div_div_eq_div_mul]
      exact Nat.div_le_div_left (by omega) (by omega)
    have hrest := ih (by rw [List.length_set]; exact hl)
    rw [List.length_set] at hrest
    rw [siftupRounds]
    split
    · rename_i child' hc'
      obtain rfl : child' = child := Option.some.inj (hc'.symm.trans hc)
      rw [log_eq_succ_of_le htwo]
      omega
    · rename_i hn
      rw [hc] at hn
      cases hn
  | case2 heap pos hc =>
    have hdown := siftdownRounds_le startpos newitem heap pos
    have hplace : Nat.log 2 ((pos + 1) / (startpos + 1)) ≤
        Nat.log 2 (heap.length / (startpos + 1)) :=
      Nat.log_mono_right (Nat.div_le_div_right hpos)
    rw [siftupRounds]
    split
    · rename_i child' hc'
      rw [hc] at hc'
      cases hc'
    · omega

theorem heappushRounds_le (heap : List α) (item : α) :
    heappushRounds heap item ≤ Nat.log 2 (heap.length + 1) + 1 := by
  have h := siftdownRounds_le 0 item (heap ++ [item]) heap.length
  rwa [Nat.zero_add, Nat.div_one] at h

theorem heappopRounds_le (heap : List α) : heappopRounds heap ≤ 2 * Nat.log 2 heap.length + 1 := by
  rw [heappopRounds]
  split
  · exact Nat.zero_le _
  · split
    · exact Nat.zero_le _
    · rename_i lastelt _ hne
      have hpos := List.length_pos_iff.mpr hne
      have h := siftupRounds_le 0 lastelt heap.dropLast 0 hpos
      rw [Nat.zero_add, Nat.div_one, List.length_dropLast] at h
      have hmono : Nat.log 2 (heap.length - 1) ≤ Nat.log 2 heap.length :=
        Nat.log_mono_right (Nat.sub_le _ 1)
      omega

theorem sum_heights_le (n : Nat) : ∑ i ∈ Finset.range n, Nat.log 2 (n / (i + 1)) ≤ n := by
  have hheight : ∀ i ∈ Finset.range n, Nat.log 2 (n / (i + 1)) =
      ∑ h ∈ Finset.Ico 1 (n + 1), if 2 ^ h * (i + 1) ≤ n then 1 else 0 := by
    intro i hi
    have hpos : n / (i + 1) ≠ 0 := by
      have hle : i + 1 ≤ n := Finset.mem_range.mp hi
      exact Nat.pos_iff_ne_zero.mp (Nat.div_pos hle (Nat.succ_pos i))
    have hset : (Finset.Ico 1 (n + 1)).filter (fun h => 2 ^ h * (i + 1) ≤ n) =
        Finset.Ico 1 (Nat.log 2 (n / (i + 1)) + 1) := by
      ext h
      have hlog : Nat.log 2 (n / (i + 1)) ≤ n :=
        (Nat.log_le_self 2 _).trans (Nat.div_le_self n _)
      rw [Finset.mem_filter, Finset.mem_Ico, Finset.mem_Ico,
        ← Nat.le_div_iff_mul_le (Nat.succ_pos i), ← Nat.le_log_iff_pow_le (by omega) hpos]
      omega
    rw [← Finset.card_filter, hset, Nat.card_Ico, Nat.add_sub_cancel]
  have hcount : ∀ h ∈ Finset.Ico 1 (n + 1),
      (∑ i ∈ Finset.range n, if 2 ^ h * (i + 1) ≤ n then 1 else 0) ≤ n / 2 ^ h := by
    intro h _
    rw [← Finset.card_filter]
    have hsub : (Finset.range n).filter (fun i => 2 ^ h * (i + 1) ≤ n) ⊆
        Finset.range (n / 2 ^ h) := by
      intro i hi
      have hle := (Finset.mem_filter.mp hi).2
      rw [Nat.mul_comm, ← Nat.le_div_iff_mul_le (Nat.two_pow_pos h)] at hle
      exact Finset.mem_range.mpr hle
    exact (Finset.card_le_card hsub).trans (Nat.le_of_eq (Finset.card_range _))
  calc ∑ i ∈ Finset.range n, Nat.log 2 (n / (i + 1))
      = ∑ i ∈ Finset.range n, ∑ h ∈ Finset.Ico 1 (n + 1),
          (if 2 ^ h * (i + 1) ≤ n then 1 else 0) := Finset.sum_congr rfl hheight
    _ = ∑ h ∈ Finset.Ico 1 (n + 1), ∑ i ∈ Finset.range n,
          (if 2 ^ h * (i + 1) ≤ n then 1 else 0) := Finset.sum_comm
    _ ≤ ∑ h ∈ Finset.Ico 1 (n + 1), n / 2 ^ h := Finset.sum_le_sum hcount
    _ ≤ n / (2 - 1) := Nat.geom_sum_Ico_le (Nat.le_refl 2) n (n + 1)
    _ = n := Nat.div_one n

theorem siftupAtRounds_le (heap : List α) (pos : Nat) :
    siftupAtRounds heap pos ≤ 2 * Nat.log 2 (heap.length / (pos + 1)) + 1 := by
  rw [siftupAtRounds]
  split
  · rename_i newitem hp
    have h := siftupRounds_le pos newitem heap pos (List.getElem?_eq_some_iff.mp hp).1
    omega
  · exact Nat.zero_le _

theorem heapifyFromRounds_le (k : Nat) (heap : List α) :
    heapifyFromRounds k heap ≤
      2 * (∑ i ∈ Finset.range k, Nat.log 2 (heap.length / (i + 1))) + 2 * k := by
  induction k generalizing heap with
  | zero => exact Nat.zero_le _
  | succ k ih =>
    have hrest := ih (siftupAt heap k)
    have hat := siftupAtRounds_le heap k
    rw [(siftupAt_perm heap k).length_eq] at hrest
    rw [heapifyFromRounds, Finset.sum_range_succ]
    omega

/-- Building a heap takes time linear in its size. -/
theorem heapifyRounds_le (heap : List α) : heapifyRounds heap ≤ 3 * heap.length := by
  have h := heapifyFromRounds_le (heap.length / 2) heap
  have hsub : ∑ i ∈ Finset.range (heap.length / 2), Nat.log 2 (heap.length / (i + 1)) ≤
      ∑ i ∈ Finset.range heap.length, Nat.log 2 (heap.length / (i + 1)) :=
    Finset.sum_le_sum_of_subset (Finset.range_mono (Nat.div_le_self _ 2))
  have hall := sum_heights_le heap.length
  rw [heapifyRounds]
  omega

end Tito.Lib.Heapq
