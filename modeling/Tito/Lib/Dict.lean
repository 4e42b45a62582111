import Mathlib.Data.List.Nodup
import Mathlib.Data.List.Perm.Basic

namespace Tito.Lib

/-- An insertion-ordered dictionary. A key is stored once, at the place of its
first insertion. -/
@[ext]
structure Dict (κ ν : Type) where
  entries : List (κ × ν)
  nodup : (entries.map Prod.fst).Nodup

namespace Dict

variable {κ ν : Type}

def empty : Dict κ ν := ⟨[], List.nodup_nil⟩

def keys (d : Dict κ ν) : List κ := d.entries.map Prod.fst

def values (d : Dict κ ν) : List ν := d.entries.map Prod.snd

def length (d : Dict κ ν) : Nat := d.entries.length

@[simp] theorem keys_empty : (empty : Dict κ ν).keys = [] := rfl

@[simp] theorem values_empty : (empty : Dict κ ν).values = [] := rfl

@[simp] theorem length_empty : (empty : Dict κ ν).length = 0 := rfl

theorem length_keys (d : Dict κ ν) : d.keys.length = d.length := List.length_map _

theorem length_values (d : Dict κ ν) : d.values.length = d.length := List.length_map _

theorem nodup_append_entry {l : List (κ × ν)} {k : κ} (v : ν)
    (hl : (l.map Prod.fst).Nodup) (hk : k ∉ l.map Prod.fst) :
    ((l ++ [(k, v)]).map Prod.fst).Nodup := by
  rw [List.map_append, List.map_singleton]
  refine List.nodup_append.mpr ⟨hl, List.nodup_singleton k, ?_⟩
  intro a ha b hb
  rw [List.mem_singleton.mp hb]
  exact fun he => hk (by simpa [he] using ha)

variable [DecidableEq κ]

instance [DecidableEq ν] : DecidableEq (Dict κ ν) := fun d e =>
  decidable_of_iff (d.entries = e.entries) ⟨Dict.ext, congrArg entries⟩

def get? (d : Dict κ ν) (k : κ) : Option ν := d.entries.lookup k

def contains (d : Dict κ ν) (k : κ) : Bool := (d.get? k).isSome

def replaceEntry (k : κ) (v : ν) (e : κ × ν) : κ × ν := if e.1 = k then (k, v) else e

theorem map_fst_replaceEntry (l : List (κ × ν)) (k : κ) (v : ν) :
    (l.map (replaceEntry k v)).map Prod.fst = l.map Prod.fst := by
  rw [List.map_map]
  apply List.map_congr_left
  intro e _
  by_cases h : e.1 = k <;> simp [replaceEntry, h]

/-- Assignment keeps the place of a key that is present and appends a new one. -/
def set (d : Dict κ ν) (k : κ) (v : ν) : Dict κ ν :=
  if h : k ∈ d.entries.map Prod.fst then
    ⟨d.entries.map (replaceEntry k v), by rw [map_fst_replaceEntry]; exact d.nodup⟩
  else ⟨d.entries ++ [(k, v)], nodup_append_entry v d.nodup h⟩

def erase (d : Dict κ ν) (k : κ) : Dict κ ν :=
  ⟨d.entries.filter (fun e => decide (e.1 ≠ k)), d.nodup.sublist (List.filter_sublist.map _)⟩

def setAll (d : Dict κ ν) (ks : List κ) (v : ν) : Dict κ ν := ks.foldl (fun d k => d.set k v) d

def eraseAll (d : Dict κ ν) (ks : List κ) : Dict κ ν := ks.foldl erase d

def fromkeys (ks : List κ) (v : ν) : Dict κ ν := setAll empty ks v

theorem get?_eq_some_iff {d : Dict κ ν} {k : κ} {v : ν} :
    d.get? k = some v ↔ (k, v) ∈ d.entries := by
  obtain ⟨l, hl⟩ := d
  unfold get?
  dsimp only at hl ⊢
  induction l with
  | nil => simp
  | cons e l ih =>
    rw [List.map_cons, List.nodup_cons] at hl
    rw [List.lookup_cons, List.mem_cons]
    by_cases h : k = e.1
    · subst h
      have hm : ∀ w, (e.1, w) ∉ l := fun w hw => hl.1 (List.mem_map.mpr ⟨_, hw, rfl⟩)
      simp only [beq_self_eq_true, Option.some.injEq, hm v, or_false, Prod.ext_iff, true_and]
      exact eq_comm
    · have hne : (k, v) ≠ e := fun he => h (by rw [← he])
      simp only [beq_eq_false_iff_ne.mpr h, hne, false_or]
      exact ih hl.2

theorem mem_keys_iff {d : Dict κ ν} {k : κ} : k ∈ d.keys ↔ ∃ v, d.get? k = some v := by
  simp only [keys, List.mem_map, Prod.exists, exists_and_right, exists_eq_right, get?_eq_some_iff]

theorem mem_values_iff {d : Dict κ ν} {v : ν} : v ∈ d.values ↔ ∃ k, d.get? k = some v := by
  simp only [values, List.mem_map, Prod.exists, exists_eq_right, get?_eq_some_iff]

theorem mem_values_of_get? {d : Dict κ ν} {k : κ} {v : ν} (h : d.get? k = some v) :
    v ∈ d.values := mem_values_iff.mpr ⟨k, h⟩

theorem mem_keys_of_get? {d : Dict κ ν} {k : κ} {v : ν} (h : d.get? k = some v) :
    k ∈ d.keys := mem_keys_iff.mpr ⟨v, h⟩

theorem get?_eq_none_iff {d : Dict κ ν} {k : κ} : d.get? k = none ↔ k ∉ d.keys := by
  rw [mem_keys_iff, Option.eq_none_iff_forall_ne_some, not_exists]

@[simp] theorem contains_iff {d : Dict κ ν} {k : κ} : d.contains k = true ↔ k ∈ d.keys := by
  rw [contains, Option.isSome_iff_exists, mem_keys_iff]

theorem contains_eq_false_iff {d : Dict κ ν} {k : κ} : d.contains k = false ↔ k ∉ d.keys := by
  rw [← contains_iff, Bool.not_eq_true]

@[simp] theorem get?_empty (k : κ) : (empty : Dict κ ν).get? k = none := rfl

theorem entries_set_of_not_mem {d : Dict κ ν} {k : κ} (h : k ∉ d.keys) (v : ν) :
    (d.set k v).entries = d.entries ++ [(k, v)] := by
  rw [set, dif_neg (show k ∉ d.entries.map Prod.fst from h)]

theorem entries_set_of_get? {d : Dict κ ν} {k : κ} {u : ν} (h : d.get? k = some u) (v : ν) :
    ∃ l₁ l₂, d.entries = l₁ ++ (k, u) :: l₂ ∧ (d.set k v).entries = l₁ ++ (k, v) :: l₂ := by
  obtain ⟨l₁, l₂, hl⟩ := List.append_of_mem (get?_eq_some_iff.mp h)
  refine ⟨l₁, l₂, hl, ?_⟩
  have hn := d.nodup
  rw [hl, List.map_append, List.map_cons] at hn
  have h₁ : ∀ e ∈ l₁, e.1 ≠ k := fun e he =>
    (List.nodup_append.mp hn).2.2 e.1 (List.mem_map_of_mem he) k (by simp)
  have h₂ : ∀ e ∈ l₂, e.1 ≠ k := fun e he hk =>
    (List.nodup_cons.mp (List.nodup_append.mp hn).2.1).1 (List.mem_map.mpr ⟨e, he, hk⟩)
  have hmem : k ∈ d.entries.map Prod.fst := mem_keys_iff.mpr ⟨u, h⟩
  rw [set, dif_pos hmem]
  dsimp only
  rw [hl, List.map_append, List.map_cons]
  have same : ∀ l : List (κ × ν), (∀ e ∈ l, e.1 ≠ k) → l.map (replaceEntry k v) = l :=
    fun l hl => (List.map_congr_left fun e he => if_neg (hl e he)).trans (List.map_id l)
  rw [same l₁ h₁, same l₂ h₂, replaceEntry, if_pos rfl]

theorem keys_set_of_mem {d : Dict κ ν} {k : κ} (h : k ∈ d.keys) (v : ν) :
    (d.set k v).keys = d.keys := by
  obtain ⟨u, hu⟩ := mem_keys_iff.mp h
  obtain ⟨l₁, l₂, h₁, h₂⟩ := entries_set_of_get? hu v
  simp only [keys, h₁, h₂, List.map_append, List.map_cons]

theorem mem_keys_set {d : Dict κ ν} {k j : κ} {v : ν} :
    j ∈ (d.set k v).keys ↔ j = k ∨ j ∈ d.keys := by
  by_cases h : k ∈ d.keys
  · rw [keys_set_of_mem h]
    exact ⟨Or.inr, fun hj => hj.elim (fun e => e ▸ h) id⟩
  · rw [keys, entries_set_of_not_mem h, List.map_append, List.mem_append, or_comm]
    simp [keys]

theorem get?_set (d : Dict κ ν) (k j : κ) (v : ν) :
    (d.set k v).get? j = if j = k then some v else d.get? j := by
  by_cases h : k ∈ d.keys
  · obtain ⟨u, hu⟩ := mem_keys_iff.mp h
    obtain ⟨l₁, l₂, h₁, h₂⟩ := entries_set_of_get? hu v
    have hk : ∀ w, d.get? k = some w → w = u := fun w hw => Option.some.inj (hw.symm.trans hu)
    ext w
    by_cases hj : j = k
    · subst hj
      have hs : (d.set j v).get? j = some v := get?_eq_some_iff.mpr (by simp [h₂])
      rw [if_pos rfl, hs]
    · rw [if_neg hj, get?_eq_some_iff, get?_eq_some_iff, h₁, h₂]
      simp [hj]
  · ext w
    rw [get?_eq_some_iff, entries_set_of_not_mem h]
    by_cases hj : j = k
    · subst hj
      have hn : (j, w) ∉ d.entries := fun hm => h (List.mem_map_of_mem hm)
      simp [hn, eq_comm]
    · simp [hj, get?_eq_some_iff]

theorem get?_erase (d : Dict κ ν) (k j : κ) :
    (d.erase k).get? j = if j = k then none else d.get? j := by
  ext w
  rw [get?_eq_some_iff]
  by_cases hj : j = k <;> simp [erase, hj, get?_eq_some_iff]

@[simp] theorem keys_erase (d : Dict κ ν) (k : κ) :
    (d.erase k).keys = d.keys.filter (fun j => decide (j ≠ k)) := by
  rw [keys, keys, List.filter_map]
  rfl

theorem mem_keys_erase {d : Dict κ ν} {k j : κ} : j ∈ (d.erase k).keys ↔ j ≠ k ∧ j ∈ d.keys := by
  rw [keys_erase, List.mem_filter, decide_eq_true_iff, and_comm]

theorem erase_of_not_mem {d : Dict κ ν} {k : κ} (h : k ∉ d.keys) : d.erase k = d := by
  apply Dict.ext
  apply List.filter_eq_self.mpr
  intro e he
  exact decide_eq_true fun hk => h (hk ▸ List.mem_map_of_mem he)

theorem values_erase [DecidableEq ν] {d : Dict κ ν} {k : κ} {v : ν} (hd : d.values.Nodup)
    (h : d.get? k = some v) : (d.erase k).values = d.values.filter (fun u => decide (u ≠ v)) := by
  rw [values, values, List.filter_map]
  refine congrArg (List.map Prod.snd) (List.filter_congr fun e he => ?_)
  have hm := get?_eq_some_iff.mp h
  have hinj := List.inj_on_of_nodup_map hd he hm
  rw [Function.comp_apply, decide_eq_decide, not_iff_not]
  refine ⟨fun hk => ?_, fun hv => congrArg Prod.fst (hinj hv)⟩
  have hs : d.get? e.1 = some e.2 := get?_eq_some_iff.mpr he
  rw [hk, h] at hs
  exact (Option.some.inj hs).symm

theorem values_set_of_not_mem {d : Dict κ ν} {k : κ} (h : k ∉ d.keys) (v : ν) :
    (d.set k v).values = d.values ++ [v] := by
  simp [values, entries_set_of_not_mem h]

theorem mem_values_of_mem_set {d : Dict κ ν} {k : κ} {u v : ν} (h : u ∈ (d.set k v).values) :
    u = v ∨ u ∈ d.values := by
  obtain ⟨j, hj⟩ := mem_values_iff.mp h
  rw [get?_set] at hj
  split at hj
  · exact Or.inl (Option.some.inj hj).symm
  · exact Or.inr (mem_values_of_get? hj)

theorem mem_values_of_mem_erase {d : Dict κ ν} {k : κ} {v : ν} (h : v ∈ (d.erase k).values) :
    v ∈ d.values := by
  obtain ⟨j, hj⟩ := mem_values_iff.mp h
  rw [get?_erase] at hj
  split at hj
  · cases hj
  · exact mem_values_of_get? hj

theorem length_set_of_not_mem {d : Dict κ ν} {k : κ} (h : k ∉ d.keys) (v : ν) :
    (d.set k v).length = d.length + 1 := by
  simp [length, entries_set_of_not_mem h]

theorem length_erase_of_mem {d : Dict κ ν} {k : κ} (h : k ∈ d.keys) :
    (d.erase k).length + 1 = d.length := by
  have hf : (d.erase k).keys = d.keys.erase k := by
    rw [keys_erase, List.Nodup.erase_eq_filter (show d.keys.Nodup from d.nodup)]
    exact List.filter_congr fun j _ => by by_cases hj : j = k <;> simp [hj]
  have hp : 0 < d.keys.length := List.length_pos_of_mem h
  rw [← length_keys, ← length_keys, hf, List.length_erase_of_mem h]
  omega

theorem get?_setAll (d : Dict κ ν) (ks : List κ) (v : ν) (j : κ) :
    (d.setAll ks v).get? j = if j ∈ ks then some v else d.get? j := by
  induction ks generalizing d with
  | nil => simp [setAll]
  | cons k ks ih =>
    rw [setAll, List.foldl_cons, ← setAll, ih, get?_set]
    by_cases hj : j ∈ ks <;> by_cases hk : j = k <;> simp [hj, hk]

theorem get?_eraseAll (d : Dict κ ν) (ks : List κ) (j : κ) :
    (d.eraseAll ks).get? j = if j ∈ ks then none else d.get? j := by
  induction ks generalizing d with
  | nil => simp [eraseAll]
  | cons k ks ih =>
    rw [eraseAll, List.foldl_cons, ← eraseAll, ih, get?_erase]
    by_cases hj : j ∈ ks <;> by_cases hk : j = k <;> simp [hj, hk]

theorem entries_setAll {d : Dict κ ν} {ks : List κ} (hks : ks.Nodup)
    (hd : ∀ k ∈ ks, k ∉ d.keys) (v : ν) :
    (d.setAll ks v).entries = d.entries ++ ks.map (fun k => (k, v)) := by
  induction ks generalizing d with
  | nil => simp [setAll]
  | cons k ks ih =>
    rw [List.nodup_cons] at hks
    have hk : k ∉ d.keys := hd k (by simp)
    have hs : ∀ j ∈ ks, j ∉ (d.set k v).keys := by
      intro j hj hm
      rcases mem_keys_set.mp hm with rfl | hm
      · exact hks.1 hj
      · exact hd j (by simp [hj]) hm
    rw [setAll, List.foldl_cons, ← setAll, ih hks.2 hs, entries_set_of_not_mem hk]
    simp

theorem entries_fromkeys {ks : List κ} (h : ks.Nodup) (v : ν) :
    (fromkeys ks v).entries = ks.map (fun k => (k, v)) := by
  rw [fromkeys, entries_setAll h (by simp)]
  rfl

theorem length_fromkeys_iff {ks : List κ} (v : ν) :
    (fromkeys ks v).length = ks.length ↔ ks.Nodup := by
  constructor
  · intro h
    have hk : (fromkeys ks v).keys.Nodup := (fromkeys ks v).nodup
    have hsub : (fromkeys ks v).keys ⊆ ks := by
      intro k hm
      obtain ⟨u, hu⟩ := mem_keys_iff.mp hm
      rw [fromkeys, get?_setAll] at hu
      by_contra hn
      simp [hn] at hu
    have hle : ks.length ≤ (fromkeys ks v).keys.length := by
      rw [length_keys]
      exact Nat.le_of_eq h.symm
    have hp := (List.subperm_of_subset hk hsub).perm_of_length_le hle
    exact hp.nodup_iff.mp hk
  · intro h
    rw [length, entries_fromkeys h, List.length_map]

theorem count_values_set [DecidableEq ν] {d : Dict κ ν} {k : κ} {u v : ν}
    (h : d.get? k = some u) (hne : u ≠ v) :
    (d.set k v).values.count v = d.values.count v + 1 := by
  obtain ⟨l₁, l₂, h₁, h₂⟩ := entries_set_of_get? h v
  simp only [values, h₁, h₂, List.map_append, List.map_cons, List.count_append,
    List.count_cons_self, List.count_cons_of_ne hne]
  omega

end Dict

end Tito.Lib
