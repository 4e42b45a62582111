import Mathlib.Order.Lattice
import Mathlib.Logic.Function.Iterate
import Mathlib.Data.List.Perm.Basic

namespace Tito.Lib.Heapq

variable {α : Type} [LinearOrder α]

def parent (i : Nat) : Nat := (i - 1) / 2

/-- Move `newitem` from the hole at `pos` towards `startpos`, past every larger parent. -/
def siftdown (startpos : Nat) (newitem : α) (heap : List α) (pos : Nat) : List α :=
  if startpos < pos then
    match heap[parent pos]? with
    | some up =>
      if newitem < up then siftdown startpos newitem (heap.set pos up) (parent pos)
      else heap.set pos newitem
    | none => heap.set pos newitem
  else heap.set pos newitem
termination_by pos
decreasing_by unfold parent; omega

/-- The right child unless it is absent or the left one is smaller. -/
def minChild (heap : List α) (pos : Nat) : Nat :=
  match heap[2 * pos + 1]?, heap[2 * pos + 2]? with
  | some l, some r => if l < r then 2 * pos + 1 else 2 * pos + 2
  | _, _ => 2 * pos + 1

theorem minChild_eq (heap : List α) (pos : Nat) :
    minChild heap pos = 2 * pos + 1 ∨ minChild heap pos = 2 * pos + 2 := by
  unfold minChild
  split
  · split
    · exact Or.inl rfl
    · exact Or.inr rfl
  · exact Or.inl rfl

/-- Bubble the smaller child up until the hole is a leaf, then place `newitem` from there. -/
def siftup (startpos : Nat) (newitem : α) (heap : List α) (pos : Nat) : List α :=
  match _h : heap[minChild heap pos]? with
  | some child => siftup startpos newitem (heap.set pos child) (minChild heap pos)
  | none => siftdown startpos newitem heap pos
termination_by heap.length - pos
decreasing_by
  have hc := (List.getElem?_eq_some_iff.mp _h).1
  have hm := minChild_eq heap pos
  rw [List.length_set]
  omega

def heappush (heap : List α) (item : α) : List α := siftdown 0 item (heap ++ [item]) heap.length

/-- The heap that `heappop` leaves; the item it returns is `heap[0]`. -/
def heappop (heap : List α) : List α :=
  match heap.getLast? with
  | none => []
  | some lastelt => if heap.dropLast = [] then [] else siftup 0 lastelt heap.dropLast 0

def siftupAt (heap : List α) (pos : Nat) : List α :=
  match heap[pos]? with
  | some newitem => siftup pos newitem heap pos
  | none => heap

def heapifyFrom : Nat → List α → List α
  | 0, heap => heap
  | i + 1, heap => heapifyFrom i (siftupAt heap i)

def heapify (heap : List α) : List α := heapifyFrom (heap.length / 2) heap

/-- Every item whose parent lies at or after `k` is at least that parent. -/
def OrderedFrom (k : Nat) (heap : List α) : Prop :=
  ∀ i x y, 0 < i → k ≤ parent i → heap[parent i]? = some x → heap[i]? = some y → x ≤ y

def IsHeap (heap : List α) : Prop := OrderedFrom 0 heap

/-- Order away from a hole, with the parent of the hole below its children. -/
structure Hollow (k hole : Nat) (heap : List α) : Prop where
  inside : hole < heap.length
  under : ∃ n, parent^[n] hole = k
  except : ∀ i x y, 0 < i → k ≤ parent i → i ≠ hole → parent i ≠ hole →
    heap[parent i]? = some x → heap[i]? = some y → x ≤ y
  bridge : k < hole → ∀ c x y, 0 < c → parent c = hole →
    heap[parent hole]? = some x → heap[c]? = some y → x ≤ y

theorem isHeap_nil : IsHeap ([] : List α) := fun _ _ _ _ _ hx _ => nomatch hx

theorem parent_lt {i : Nat} (h : 0 < i) : parent i < i := by unfold parent; omega

theorem iterate_parent_le (n i : Nat) : parent^[n] i ≤ i := by
  induction n generalizing i with
  | zero => exact Nat.le_refl i
  | succ n ih =>
    rw [Function.iterate_succ_apply]
    have hp : parent i ≤ i := by unfold parent; omega
    exact Nat.le_trans (ih (parent i)) hp

theorem Hollow.start_le {k hole : Nat} {heap : List α} (h : Hollow k hole heap) : k ≤ hole := by
  obtain ⟨n, hn⟩ := h.under
  exact hn ▸ iterate_parent_le n hole

theorem under_parent {k hole : Nat} (h : ∃ n, parent^[n] hole = k) (hk : k < hole) :
    ∃ n, parent^[n] (parent hole) = k := by
  obtain ⟨n, hn⟩ := h
  cases n with
  | zero => exact absurd hn (by simp only [Function.iterate_zero, id_eq]; omega)
  | succ n => exact ⟨n, hn⟩

theorem perm_set_set {l : List α} {i j : Nat} {a b : α} (hij : i ≠ j) (hi : i < l.length)
    (hj : l[j]? = some b) : ((l.set i b).set j a).Perm (l.set i a) := by
  obtain ⟨hjl, hb⟩ := List.getElem?_eq_some_iff.mp hj
  rw [List.perm_iff_count]
  intro c
  have hjl' : j < (l.set i b).length := by simpa using hjl
  have hji : (l.set i b)[j] = b := by
    rw [List.getElem_set_ne hij]
    exact hb
  rw [List.count_set hjl', hji, List.count_set hi, List.count_set hi]
  by_cases hbc : b = c <;> simp [hbc]

theorem siftdown_perm (k : Nat) (a : α) (heap : List α) (pos : Nat) (h : pos < heap.length) :
    (siftdown k a heap pos).Perm (heap.set pos a) := by
  induction heap, pos using siftdown.induct k a with
  | case1 heap pos hk up hup ha ih =>
    rw [siftdown, if_pos hk, hup]
    dsimp only
    rw [if_pos ha]
    have hp : parent pos < pos := parent_lt (by omega)
    refine (ih (by rw [List.length_set]; omega)).trans ?_
    exact perm_set_set (Nat.ne_of_gt hp) h hup
  | case2 heap pos hk up hup ha =>
    rw [siftdown, if_pos hk, hup]
    dsimp only
    rw [if_neg ha]
  | case3 heap pos hk hup => rw [siftdown, if_pos hk, hup]
  | case4 heap pos hk => rw [siftdown, if_neg hk]

theorem siftup_perm (k : Nat) (a : α) (heap : List α) (pos : Nat) (h : pos < heap.length) :
    (siftup k a heap pos).Perm (heap.set pos a) := by
  induction heap, pos using siftup.induct with
  | case1 heap pos child hc ih =>
    have hm := minChild_eq heap pos
    have hl := (List.getElem?_eq_some_iff.mp hc).1
    rw [siftup]
    split
    · rename_i child' hc'
      obtain rfl : child' = child := Option.some.inj (hc'.symm.trans hc)
      refine (ih (by rw [List.length_set]; exact hl)).trans ?_
      exact perm_set_set (by omega) h hc
    · rename_i hn
      rw [hc] at hn
      cases hn
  | case2 heap pos hc =>
    rw [siftup]
    split
    · rename_i child' hc'
      rw [hc] at hc'
      cases hc'
    · exact siftdown_perm k a heap pos h

theorem Hollow.fill {k hole : Nat} {heap : List α} (h : Hollow k hole heap) {a : α}
    (hup : ∀ x, k < hole → heap[parent hole]? = some x → x ≤ a)
    (hdown : ∀ c y, 0 < c → parent c = hole → heap[c]? = some y → a ≤ y) :
    OrderedFrom k (heap.set hole a) := by
  intro i x y hi hk hx hy
  rw [List.getElem?_set] at hx hy
  have hp := parent_lt hi
  by_cases hih : hole = i
  · subst hih
    rw [if_neg (by omega)] at hx
    rw [if_pos rfl, if_pos h.inside] at hy
    obtain rfl := Option.some.inj hy
    exact hup x (by omega) hx
  · rw [if_neg hih] at hy
    by_cases hph : hole = parent i
    · rw [if_pos hph, if_pos h.inside] at hx
      obtain rfl := Option.some.inj hx
      exact hdown i y hi hph.symm hy
    · rw [if_neg hph] at hx
      exact h.except i x y hi hk (Ne.symm hih) (Ne.symm hph) hx hy

theorem Hollow.rise {k hole : Nat} {heap : List α} (h : Hollow k hole heap) (hk : k < hole)
    {up : α} (hup : heap[parent hole]? = some up) : Hollow k (parent hole) (heap.set hole up) := by
  have hp := parent_lt (Nat.zero_lt_of_lt hk)
  have hin := h.inside
  have hkp : k ≤ parent hole := by
    obtain ⟨n, hn⟩ := under_parent h.under hk
    exact hn ▸ iterate_parent_le n (parent hole)
  refine ⟨by rw [List.length_set]; omega, under_parent h.under hk, ?_, ?_⟩
  · intro i x y hi hki hne hpne hx hy
    rw [List.getElem?_set] at hx hy
    by_cases hih : hole = i
    · exact absurd (congrArg parent hih).symm hpne
    · rw [if_neg hih] at hy
      by_cases hph : hole = parent i
      · rw [if_pos hph, if_pos hin] at hx
        obtain rfl := Option.some.inj hx
        exact h.bridge hk i up y hi hph.symm hup hy
      · rw [if_neg hph] at hx
        exact h.except i x y hi hki (Ne.symm hih) (Ne.symm hph) hx hy
  · intro hkp' c x y hc hpc hx hy
    have hpp := parent_lt (Nat.zero_lt_of_lt hkp')
    have hkpp : k ≤ parent (parent hole) := by
      obtain ⟨n, hn⟩ := under_parent (under_parent h.under hk) hkp'
      exact hn ▸ iterate_parent_le n _
    rw [List.getElem?_set] at hx hy
    rw [if_neg (by omega)] at hx
    have hxu : x ≤ up := h.except (parent hole) x up (by omega) hkpp (by omega) (by omega) hx hup
    by_cases hch : hole = c
    · rw [if_pos hch, if_pos hin] at hy
      obtain rfl := Option.some.inj hy
      exact hxu
    · rw [if_neg hch] at hy
      have huy : up ≤ y :=
        h.except c up y hc (by omega) (Ne.symm hch) (by omega) (by rw [hpc]; exact hup) hy
      exact hxu.trans huy

theorem siftdown_ordered (k : Nat) (a : α) (heap : List α) (pos : Nat) (h : Hollow k pos heap)
    (hdown : ∀ c y, 0 < c → parent c = pos → heap[c]? = some y → a ≤ y) :
    OrderedFrom k (siftdown k a heap pos) := by
  induction heap, pos using siftdown.induct k a with
  | case1 heap pos hk up hup ha ih =>
    rw [siftdown, if_pos hk, hup]
    dsimp only
    rw [if_pos ha]
    refine ih (h.rise hk hup) ?_
    intro c y hc hpc hy
    rw [List.getElem?_set] at hy
    by_cases hch : pos = c
    · rw [if_pos hch, if_pos h.inside] at hy
      obtain rfl := Option.some.inj hy
      exact ha.le
    · rw [if_neg hch] at hy
      have hkp : k ≤ parent c := by
        obtain ⟨n, hn⟩ := under_parent h.under hk
        rw [hpc]
        exact hn ▸ iterate_parent_le n _
      have hp := parent_lt (Nat.zero_lt_of_lt hk)
      exact ha.le.trans
        (h.except c up y hc hkp (Ne.symm hch) (by omega) (by rw [hpc]; exact hup) hy)
  | case2 heap pos hk up hup ha =>
    rw [siftdown, if_pos hk, hup]
    dsimp only
    rw [if_neg ha]
    refine h.fill (fun x _ hx => ?_) hdown
    obtain rfl := Option.some.inj (hup.symm.trans hx)
    exact not_lt.mp ha
  | case3 heap pos hk hup =>
    rw [siftdown, if_pos hk, hup]
    refine h.fill (fun x _ hx => ?_) hdown
    rw [hup] at hx
    cases hx
  | case4 heap pos hk =>
    rw [siftdown, if_neg hk]
    exact h.fill (fun _ hk' _ => absurd hk' hk) hdown

theorem minChild_le {heap : List α} {pos c : Nat} {child y : α} (hc : 0 < c) (hp : parent c = pos)
    (hm : heap[minChild heap pos]? = some child) (hy : heap[c]? = some y) : child ≤ y := by
  have hcs : c = 2 * pos + 1 ∨ c = 2 * pos + 2 := by unfold parent at hp; omega
  unfold minChild at hm
  split at hm
  · rename_i l r hl hr
    split at hm
    · rename_i hlr
      obtain rfl := Option.some.inj (hl.symm.trans hm)
      rcases hcs with rfl | rfl
      · exact le_of_eq (Option.some.inj (hm.symm.trans hy))
      · exact hlr.le.trans (le_of_eq (Option.some.inj (hr.symm.trans hy)))
    · rename_i hlr
      obtain rfl := Option.some.inj (hr.symm.trans hm)
      rcases hcs with rfl | rfl
      · exact (not_lt.mp hlr).trans (le_of_eq (Option.some.inj (hl.symm.trans hy)))
      · exact le_of_eq (Option.some.inj (hm.symm.trans hy))
  · rename_i hno
    rcases hcs with rfl | rfl
    · exact le_of_eq (Option.some.inj (hm.symm.trans hy))
    · exact absurd hy (hno child y hm)

/-- The hole sinks to the smaller child, which takes its place. -/
theorem Hollow.sink {k hole : Nat} {heap : List α} (h : Hollow k hole heap) {child : α}
    (hm : heap[minChild heap hole]? = some child) :
    Hollow k (minChild heap hole) (heap.set hole child) := by
  have hc := minChild_eq heap hole
  have hl := (List.getElem?_eq_some_iff.mp hm).1
  have hin := h.inside
  have hpc : parent (minChild heap hole) = hole := by unfold parent; omega
  have hkh := h.start_le
  refine ⟨by rw [List.length_set]; exact hl, ?_, ?_, ?_⟩
  · obtain ⟨n, hn⟩ := h.under
    exact ⟨n + 1, by rw [Function.iterate_succ_apply, hpc, hn]⟩
  · intro i x y hi hki hne hpne hx hy
    rw [List.getElem?_set] at hx hy
    have hpi := parent_lt hi
    by_cases hih : hole = i
    · subst hih
      rw [if_neg (by omega)] at hx
      rw [if_pos rfl, if_pos hin] at hy
      obtain rfl := Option.some.inj hy
      exact h.bridge (by omega) (minChild heap hole) x child (by omega) hpc hx hm
    · rw [if_neg hih] at hy
      by_cases hph : hole = parent i
      · rw [if_pos hph, if_pos hin] at hx
        obtain rfl := Option.some.inj hx
        exact minChild_le hi hph.symm hm hy
      · rw [if_neg hph] at hx
        exact h.except i x y hi hki (Ne.symm hih) (Ne.symm hph) hx hy
  · intro _ d x y hd hpd hx hy
    have hpi := parent_lt hd
    rw [List.getElem?_set] at hx hy
    rw [if_pos hpc.symm, if_pos hin] at hx
    rw [if_neg (by omega)] at hy
    obtain rfl := Option.some.inj hx
    exact h.except d child y hd (by omega) (by omega) (by omega) (by rw [hpd]; exact hm) hy

theorem siftup_ordered (k : Nat) (a : α) (heap : List α) (pos : Nat) (h : Hollow k pos heap) :
    OrderedFrom k (siftup k a heap pos) := by
  induction heap, pos using siftup.induct with
  | case1 heap pos child hc ih =>
    rw [siftup]
    split
    · rename_i child' hc'
      obtain rfl : child' = child := Option.some.inj (hc'.symm.trans hc)
      exact ih (h.sink hc)
    · rename_i hn
      rw [hc] at hn
      cases hn
  | case2 heap pos hc =>
    rw [siftup]
    split
    · rename_i child' hc'
      rw [hc] at hc'
      cases hc'
    · refine siftdown_ordered k a heap pos h ?_
      intro c y hc0 hpc hy
      -- a missing left child means that the hole is a leaf
      have hnone : heap[2 * pos + 1]? = none := by
        by_contra hsome
        obtain ⟨l, hl⟩ := Option.ne_none_iff_exists'.mp hsome
        unfold minChild at hc
        rw [hl] at hc
        split at hc
        · rename_i l' r' _ hr
          split at hc
          · rw [hl] at hc; cases hc
          · rw [hr] at hc; cases hc
        · rw [hl] at hc; cases hc
      have hlen := List.getElem?_eq_none_iff.mp hnone
      have hcl := (List.getElem?_eq_some_iff.mp hy).1
      unfold parent at hpc
      omega

theorem heappush_perm (heap : List α) (item : α) : (heappush heap item).Perm (item :: heap) := by
  have h := siftdown_perm 0 item (heap ++ [item]) heap.length (by simp)
  rw [List.set_append_right heap.length item (Nat.le_refl _), Nat.sub_self] at h
  exact h.trans List.perm_append_comm

theorem heappush_isHeap {heap : List α} (h : IsHeap heap) (item : α) :
    IsHeap (heappush heap item) := by
  -- the new last place has no children, so the hole there is bridged by nothing
  have hout : ∀ c, 0 < c → parent c = heap.length → (heap ++ [item])[c]? = none := by
    intro c hc hp
    apply List.getElem?_eq_none
    rw [List.length_append, List.length_singleton]
    unfold parent at hp
    omega
  have root : ∀ i, ∃ n, parent^[n] i = 0 := by
    intro i
    induction i using Nat.strongRecOn with
    | ind i ih =>
      by_cases hi : i = 0
      · exact ⟨0, hi⟩
      · obtain ⟨n, hn⟩ := ih (parent i) (parent_lt (Nat.pos_of_ne_zero hi))
        exact ⟨n + 1, hn⟩
  refine siftdown_ordered 0 item (heap ++ [item]) heap.length ⟨by simp, root _, ?_, ?_⟩ ?_
  · intro i x y hi _ hne hpne hx hy
    have hil : i < heap.length := by
      have := (List.getElem?_eq_some_iff.mp hy).1
      rw [List.length_append, List.length_singleton] at this
      omega
    have hp := parent_lt hi
    rw [List.getElem?_append_left (by omega)] at hx
    rw [List.getElem?_append_left hil] at hy
    exact h i x y hi (Nat.zero_le _) hx hy
  · intro _ c x y hc hp _ hy
    rw [hout c hc hp] at hy
    cases hy
  · intro c y hc hp hy
    rw [hout c hc hp] at hy
    cases hy

theorem heappop_cons (a : α) (t : List α) :
    heappop (a :: t) = match t.getLast? with
      | none => []
      | some lastelt => siftup 0 lastelt (a :: t.dropLast) 0 := by
  cases t with
  | nil => rfl
  | cons b t => simp [heappop, List.getLast?_cons_cons]

theorem heappop_perm (a : α) (t : List α) : (heappop (a :: t)).Perm t := by
  rw [heappop_cons]
  cases ht : t.getLast? with
  | none =>
    rw [List.getLast?_eq_none_iff] at ht
    rw [ht]
  | some lastelt =>
    dsimp only
    refine (siftup_perm 0 lastelt (a :: t.dropLast) 0 (by simp)).trans ?_
    rw [List.set_cons_zero]
    have hd : t = t.dropLast ++ [lastelt] :=
      (List.dropLast_append_getLast? lastelt ht).symm
    conv => rhs; rw [hd]
    exact List.perm_append_singleton lastelt t.dropLast |>.symm

theorem heappop_isHeap {heap : List α} (h : IsHeap heap) : IsHeap (heappop heap) := by
  cases heap with
  | nil => exact h
  | cons a t =>
    rw [heappop_cons]
    cases ht : t.getLast? with
    | none => exact isHeap_nil
    | some lastelt =>
      have hd : a :: t = (a :: t.dropLast) ++ [lastelt] := by
        rw [List.cons_append, List.dropLast_append_getLast? lastelt ht]
      refine siftup_ordered 0 lastelt (a :: t.dropLast) 0 ⟨by simp, ⟨0, rfl⟩, ?_, ?_⟩
      · intro i x y hi _ _ _ hx hy
        refine h i x y hi (Nat.zero_le _) ?_ ?_
        · rw [hd, List.getElem?_append_left (List.getElem?_eq_some_iff.mp hx).1]
          exact hx
        · rw [hd, List.getElem?_append_left (List.getElem?_eq_some_iff.mp hy).1]
          exact hy
      · exact fun hk => absurd hk (Nat.lt_irrefl 0)

theorem siftupAt_perm (heap : List α) (pos : Nat) : (siftupAt heap pos).Perm heap := by
  unfold siftupAt
  cases hp : heap[pos]? with
  | none => exact List.Perm.refl heap
  | some newitem =>
    obtain ⟨hlt, hv⟩ := List.getElem?_eq_some_iff.mp hp
    have hs := siftup_perm pos newitem heap pos hlt
    rwa [← hv, List.set_getElem_self, hv] at hs

theorem siftupAt_ordered {heap : List α} {k : Nat} (h : OrderedFrom (k + 1) heap) :
    OrderedFrom k (siftupAt heap k) := by
  unfold siftupAt
  cases hp : heap[k]? with
  | none =>
    intro i x y hi hk hx hy
    have hlen := List.getElem?_eq_none_iff.mp hp
    dsimp only at hy
    have hil := (List.getElem?_eq_some_iff.mp hy).1
    have hpi := parent_lt hi
    omega
  | some newitem =>
    have hlt := (List.getElem?_eq_some_iff.mp hp).1
    refine siftup_ordered k newitem heap k ⟨hlt, ⟨0, rfl⟩, ?_, ?_⟩
    · intro i x y hi hk _ hpne hx hy
      exact h i x y hi (by omega) hx hy
    · exact fun hk => absurd hk (Nat.lt_irrefl k)

theorem heapifyFrom_perm (k : Nat) (heap : List α) : (heapifyFrom k heap).Perm heap := by
  induction k generalizing heap with
  | zero => exact List.Perm.refl heap
  | succ k ih => exact (ih (siftupAt heap k)).trans (siftupAt_perm heap k)

theorem heapifyFrom_isHeap {k : Nat} {heap : List α} (h : OrderedFrom k heap) :
    IsHeap (heapifyFrom k heap) := by
  induction k generalizing heap with
  | zero => exact h
  | succ k ih => exact ih (siftupAt_ordered h)

theorem heapify_perm (heap : List α) : (heapify heap).Perm heap := heapifyFrom_perm _ heap

theorem heapify_isHeap (heap : List α) : IsHeap (heapify heap) := by
  refine heapifyFrom_isHeap ?_
  intro i x y hi hk _ hy
  have hil := (List.getElem?_eq_some_iff.mp hy).1
  unfold parent at hk
  omega

theorem IsHeap.head_le {a : α} {t : List α} (h : IsHeap (a :: t)) : ∀ x ∈ a :: t, a ≤ x := by
  have hi : ∀ (i : Nat) x, (a :: t)[i]? = some x → a ≤ x := by
    intro i
    induction i using Nat.strongRecOn with
    | ind i ih =>
      intro x hx
      by_cases h0 : i = 0
      · subst h0
        exact le_of_eq (Option.some.inj hx)
      · have hp := parent_lt (Nat.pos_of_ne_zero h0)
        have hl := (List.getElem?_eq_some_iff.mp hx).1
        have hpx : (a :: t)[parent i]? = some (a :: t)[parent i] :=
          List.getElem?_eq_getElem (by omega)
        exact (ih (parent i) hp _ hpx).trans
          (h i _ x (Nat.pos_of_ne_zero h0) (Nat.zero_le _) hpx hx)
  intro x hx
  obtain ⟨i, hxi⟩ := List.getElem?_of_mem hx
  exact hi i x hxi

end Tito.Lib.Heapq
