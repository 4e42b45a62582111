import Mathlib.Data.List.Basic

namespace Tito.Lib.Search

variable {α : Type}

theorem find?_eq_some_of_unique {l : List α} {p : α → Bool} {a : α} (ha : a ∈ l)
    (hp : p a = true) (hu : ∀ b ∈ l, p b = true → b = a) : l.find? p = some a := by
  cases hf : l.find? p with
  | none => exact absurd hp (List.find?_eq_none.mp hf a ha)
  | some b => rw [hu b (List.mem_of_find?_eq_some hf) (List.find?_some hf)]

/-- In a list sorted by `key`, a scan finds the qualifying element of least key. -/
theorem find?_eq_some_of_least (key : α → Nat) {l : List α} {p : α → Bool} {a : α}
    (hl : l.Pairwise fun a b => key a < key b) (ha : a ∈ l) (hp : p a = true)
    (hm : ∀ b ∈ l, p b = true → key a ≤ key b) : l.find? p = some a := by
  obtain ⟨before, rest, rfl⟩ := List.append_of_mem ha
  refine List.find?_eq_some_iff_append.mpr ⟨hp, before, rest, rfl, ?_⟩
  intro b hb
  by_contra hpb
  have hlt : key b < key a := (List.pairwise_append.mp hl).2.2 b hb a (by simp)
  have hle := hm b (List.mem_append_left _ hb) (by simpa using hpb)
  omega

theorem filter_eq_singleton {β : Type} [DecidableEq β] {l : List α} {key : α → β}
    (hl : (l.map key).Nodup) {a : α} (ha : a ∈ l) :
    l.filter (fun b => decide (key b = key a)) = [a] := by
  obtain ⟨before, rest, rfl⟩ := List.append_of_mem ha
  rw [List.map_append, List.map_cons] at hl
  have hb : ∀ b ∈ before, key b ≠ key a := fun b hb =>
    (List.nodup_append.mp hl).2.2 _ (List.mem_map_of_mem hb) _ List.mem_cons_self
  have hr : ∀ b ∈ rest, key b ≠ key a := fun b hb he =>
    (List.nodup_cons.mp (List.nodup_append.mp hl).2.1).1 (he ▸ List.mem_map_of_mem hb)
  rw [List.filter_append, List.filter_cons_of_pos (by simp),
    List.filter_eq_nil_iff.mpr (by simpa using hb), List.filter_eq_nil_iff.mpr (by simpa using hr)]
  rfl

theorem getElem?_concat_eq_some {l : List α} {a b : α} {k : Nat} :
    (l ++ [a])[k]? = some b ↔ l[k]? = some b ∨ (k = l.length ∧ b = a) := by
  rw [List.getElem?_append]
  split
  · rename_i hk
    exact ⟨Or.inl, fun h => h.resolve_right fun h' => Nat.ne_of_lt hk h'.1⟩
  · rename_i hk
    have hn : l[k]? = none := List.getElem?_eq_none (Nat.le_of_not_lt hk)
    rw [List.getElem?_singleton, hn]
    by_cases he : k = l.length
    · simp [he, eq_comm]
    · simp [he, show ¬ k - l.length = 0 by omega]

theorem takeWhile_map_of_forall {β : Type} {f : α → β} {p : α → Bool} {q : β → Bool} {l : List α}
    (h : ∀ a ∈ l, q (f a) = p a) : (l.map f).takeWhile q = (l.takeWhile p).map f := by
  induction l with
  | nil => rfl
  | cons a l ih =>
    have htail := ih fun b hb => h b (List.mem_cons_of_mem a hb)
    rw [List.map_cons, List.takeWhile_cons, List.takeWhile_cons, h a List.mem_cons_self, htail]
    split <;> rfl

end Tito.Lib.Search
