import Tito.Lib.Heapq

namespace Tito.Lib.LazyHeap

open Heapq

variable {α : Type} [LinearOrder α]

theorem length_heappop_cons (a : α) (t : List α) : (heappop (a :: t)).length = t.length :=
  (heappop_perm a t).length_eq

/-- Lazy deletion: items that have gone stale are popped only when they surface. -/
def dropStale (live : α → Bool) : List α → List α
  | [] => []
  | a :: t => if live a then a :: t else dropStale live (heappop (a :: t))
termination_by heap => heap.length
decreasing_by rw [length_heappop_cons]; exact Nat.lt_succ_self _

theorem dropStale_perm (live : α → Bool) (heap : List α) :
    ∃ stale, (stale ++ dropStale live heap).Perm heap ∧ ∀ a ∈ stale, live a = false := by
  induction heap using dropStale.induct live with
  | case1 => exact ⟨[], by rw [dropStale]; exact List.Perm.refl _, by simp⟩
  | case2 a t ha => exact ⟨[], by rw [dropStale, if_pos ha]; exact List.Perm.refl _, by simp⟩
  | case3 a t ha ih =>
    obtain ⟨stale, hp, hs⟩ := ih
    refine ⟨a :: stale, ?_, ?_⟩
    · rw [dropStale, if_neg ha, List.cons_append]
      exact (hp.trans (heappop_perm a t)).cons a
    · intro b hb
      rcases List.mem_cons.mp hb with rfl | hb
      · exact Bool.eq_false_iff.mpr ha
      · exact hs b hb

theorem mem_dropStale {live : α → Bool} {heap : List α} {a : α} (h : a ∈ heap) (ha : live a = true) :
    a ∈ dropStale live heap := by
  obtain ⟨stale, hp, hs⟩ := dropStale_perm live heap
  rcases List.mem_append.mp (hp.mem_iff.mpr h) with hm | hm
  · rw [hs a hm] at ha
    cases ha
  · exact hm

theorem dropStale_isHeap {live : α → Bool} {heap : List α} (h : IsHeap heap) :
    IsHeap (dropStale live heap) := by
  induction heap using dropStale.induct live with
  | case1 => rw [dropStale]; exact h
  | case2 a t ha => rw [dropStale, if_pos ha]; exact h
  | case3 a t ha ih => rw [dropStale, if_neg ha]; exact ih (heappop_isHeap h)

theorem dropStale_cons_live {live : α → Bool} {heap : List α} {a : α} {t : List α}
    (h : dropStale live heap = a :: t) : live a = true := by
  induction heap using dropStale.induct live with
  | case1 => rw [dropStale] at h; cases h
  | case2 b u hb =>
    rw [dropStale, if_pos hb] at h
    rw [← (List.cons.inj h).1, hb]
  | case3 b u hb ih =>
    rw [dropStale, if_neg hb] at h
    exact ih h

theorem dropStale_cons_least {live : α → Bool} {heap : List α} (hh : IsHeap heap) {a : α} {t : List α}
    (h : dropStale live heap = a :: t) : ∀ b ∈ heap, live b = true → a ≤ b := by
  intro b hb hl
  have hd : IsHeap (a :: t) := h ▸ dropStale_isHeap hh
  exact hd.head_le b (h ▸ mem_dropStale hb hl)

theorem dropStale_eq_nil {live : α → Bool} {heap : List α} (h : dropStale live heap = []) :
    ∀ b ∈ heap, live b = false := by
  intro b hb
  by_contra hl
  have hm := mem_dropStale hb (Bool.eq_false_or_eq_true _ |>.resolve_right hl)
  rw [h] at hm
  cases hm

end Tito.Lib.LazyHeap
