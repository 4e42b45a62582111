import Mathlib.Data.List.Basic

namespace Tito.Lib.Memory

variable {α β σ : Type} {n : Nat}

/-- A write to an array of fixed size. Beyond its end nothing is defined; a read is `arr[i]?`. -/
def write (arr : Vector α n) (i : Nat) (a : α) : Option (Vector α n) :=
  if h : i < n then some (arr.set i a h) else none

/-- `for (; k > 0; i++, k--) if (p(i)) return i;`, with `none` when the loop is left at its end. -/
def scan (p : Nat → Option Bool) : Nat → Nat → Option (Option Nat)
  | _, 0 => some none
  | i, k + 1 => do if ← p i then return some i else scan p (i + 1) k

/-- `for (; k > 0; i++, k--) s = body(i, s);` -/
def each (body : Nat → σ → Option σ) : Nat → Nat → σ → Option σ
  | _, 0, s => some s
  | i, k + 1, s => do each body (i + 1) k (← body i s)

theorem write_of_lt {arr : Vector α n} {i : Nat} {a : α} (h : i < n) :
    write arr i a = some (arr.set i a h) := dif_pos h

theorem lt_of_getElem? {arr : Vector α n} {i : Nat} {a : α} (h : arr[i]? = some a) : i < n :=
  (Vector.getElem?_eq_some_iff.mp h).1

/-- A loop that looks for something finds the first place in the list that the array holds. -/
theorem scan_eq {l : List α} {f : α → Bool} {p : Nat → Option Bool} {i : Nat}
    (hp : ∀ j a, l[j]? = some a → p (i + j) = some (f a)) :
    scan p i l.length = some ((l.findIdx? f).map (i + ·)) := by
  induction l generalizing i with
  | nil => rfl
  | cons a l ih =>
    have ha : p i = some (f a) := hp 0 a rfl
    have hrest : ∀ j b, l[j]? = some b → p (i + 1 + j) = some (f b) := by
      intro j b hb
      rw [Nat.add_assoc, Nat.add_comm 1 j]
      exact hp (j + 1) b hb
    rw [List.length_cons, scan, ha, Option.bind_eq_bind, Option.bind_some, List.findIdx?_cons]
    cases hf : f a with
    | true => rfl
    | false =>
      rw [if_neg Bool.false_ne_true, ih hrest, if_neg Bool.false_ne_true, Option.map_map]
      congr 2
      funext j
      simp only [Function.comp_apply]
      omega

theorem scan_zero {l : List α} {f : α → Bool} {p : Nat → Option Bool}
    (hp : ∀ (j : Nat) (a : α), l[j]? = some a → p j = some (f a)) :
    scan p 0 l.length = some (l.findIdx? f) := by
  rw [scan_eq (f := f) fun j a ha => by rw [Nat.zero_add]; exact hp j a ha]
  simp only [Nat.zero_add, Option.map_id']

theorem each_keeps {l : List α} (Inv : List α → σ → Prop) {body : Nat → σ → Option σ} {i : Nat}
    (hbody : ∀ done a rest s, l = done ++ a :: rest → Inv done s →
      ∃ s', body (i + done.length) s = some s' ∧ Inv (done ++ [a]) s') {s : σ} (hs : Inv [] s) :
    ∃ s', each body i l.length s = some s' ∧ Inv l s' := by
  have hrun : ∀ rest done s, l = done ++ rest → Inv done s →
      ∃ s', each body (i + done.length) rest.length s = some s' ∧ Inv l s' := by
    intro rest
    induction rest with
    | nil =>
      intro done s hl hd
      rw [List.append_nil] at hl
      exact ⟨s, rfl, hl ▸ hd⟩
    | cons a rest ih =>
      intro done s hl hd
      obtain ⟨t, ht, hinv⟩ := hbody done a rest s hl hd
      obtain ⟨s', hs', hl'⟩ := ih (done ++ [a]) t (by simpa using hl) hinv
      refine ⟨s', ?_, hl'⟩
      rw [List.length_cons, each, ht]
      rw [List.length_append, List.length_singleton, ← Nat.add_assoc] at hs'
      exact hs'
  exact hrun l [] s rfl hs

def collect (f : Nat → Option β) (k : Nat) : Option (List β) :=
  each (fun i read => do return read ++ [← f i]) 0 k []

theorem collect_eq {l : List α} {f : Nat → Option β} {h : α → β}
    (hf : ∀ (j : Nat) (a : α), l[j]? = some a → f j = some (h a)) :
    collect f l.length = some (l.map h) := by
  have hround : ∀ (done : List α) (a : α) (rest : List α) (read : List β),
      l = done ++ a :: rest → read = done.map h → ∃ read',
        (do return read ++ [← f (0 + done.length)]) = some read' ∧ read' = (done ++ [a]).map h := by
    intro done a rest read hl hread
    refine ⟨read ++ [h a], ?_, by rw [hread, List.map_append, List.map_singleton]⟩
    rw [Nat.zero_add, hf done.length a (by simp [hl])]
    rfl
  have hrun : ∃ read, collect f l.length = some read ∧ read = l.map h :=
    each_keeps (fun done read => read = done.map h) hround rfl
  obtain ⟨read, hread, rfl⟩ := hrun
  exact hread

/-- The array holds the list from its beginning on, each element as `R` has it. -/
def Holds (R : β → α → Prop) (arr : Vector β n) (l : List α) : Prop :=
  ∀ (i : Nat) (a : α), l[i]? = some a → ∃ b, arr[i]? = some b ∧ R b a

namespace Holds

variable {R : β → α → Prop} {arr : Vector β n} {l : List α}

theorem nil : Holds R arr [] := fun i a h => by simp at h

theorem length_le (h : Holds R arr l) : l.length ≤ n := by
  rcases Nat.eq_zero_or_pos l.length with h0 | hpos
  · omega
  · obtain ⟨a, ha⟩ : ∃ a, l[l.length - 1]? = some a := by
      rw [List.getElem?_eq_getElem (by omega)]
      exact ⟨_, rfl⟩
    obtain ⟨b, hb, -⟩ := h _ a ha
    have := lt_of_getElem? hb
    omega

theorem concat (h : Holds R arr l) {a : α} {b : β} (hn : l.length < n) (hb : R b a) :
    Holds R (arr.set l.length b hn) (l ++ [a]) := by
  intro i c hc
  rw [List.getElem?_append] at hc
  split at hc
  · rename_i hi
    rw [Vector.getElem?_set_ne hn (Nat.ne_of_gt hi)]
    exact h i c hc
  · rename_i hi
    obtain ⟨hj, hac⟩ : i - l.length = 0 ∧ a = c := by
      rw [List.getElem?_singleton] at hc
      split at hc
      · rename_i hj
        exact ⟨hj, Option.some.inj hc⟩
      · cases hc
    obtain rfl : i = l.length := by omega
    exact ⟨b, Vector.getElem?_set_self hn, hac ▸ hb⟩

theorem set (h : Holds R arr l) {i : Nat} {a : α} {b : β} (hn : i < n) (hb : R b a) :
    Holds R (arr.set i b hn) (l.set i a) := by
  intro j c hc
  rw [List.getElem?_set] at hc
  split at hc
  · rename_i hij
    subst hij
    split at hc
    · obtain rfl := Option.some.inj hc
      exact ⟨b, Vector.getElem?_set_self hn, hb⟩
    · cases hc
  · rename_i hij
    rw [Vector.getElem?_set_ne hn hij]
    exact h j c hc

theorem map {γ : Type} {S : β → γ → Prop} {f : α → γ} (h : Holds R arr l)
    (hf : ∀ a ∈ l, ∀ b, R b a → S b (f a)) : Holds S arr (l.map f) := by
  intro i c hc
  rw [List.getElem?_map, Option.map_eq_some_iff] at hc
  obtain ⟨a, ha, rfl⟩ := hc
  obtain ⟨b, hb, hR⟩ := h i a ha
  exact ⟨b, hb, hf a (List.mem_of_getElem? ha) b hR⟩

end Holds

/-- `for (; k > 0; i++, k--) arr[i] = arr[i + 1];` -/
def moveDown (i k : Nat) (arr : Vector α n) : Option (Vector α n) :=
  each (fun j arr => do write arr j (← arr[j + 1]?)) i k arr

theorem move_step {arr : Vector α n} {i k : Nat} (h : i + k < n) (done : List Nat) (a : Nat)
    (rest : List Nat) (t : Vector α n) (hl : List.range k = done ++ a :: rest)
    (ht : ∀ j, t[j]? = if i ≤ j ∧ j < i + done.length then arr[j + 1]? else arr[j]?) :
    ∃ t' : Vector α n, (do write t (i + done.length) (← t[i + done.length + 1]?)) = some t' ∧
      ∀ j, t'[j]? = if i ≤ j ∧ j < i + (done ++ [a]).length then arr[j + 1]? else arr[j]? := by
  have hlen : done.length < k := by
    have := congrArg List.length hl
    simp only [List.length_range, List.length_append, List.length_cons] at this
    omega
  have hj : i + done.length + 1 < n := by omega
  obtain ⟨b, hb⟩ : ∃ b, t[i + done.length + 1]? = some b :=
    ⟨t[i + done.length + 1], Vector.getElem?_eq_getElem hj⟩
  refine ⟨t.set (i + done.length) b (by omega), ?_, fun j => ?_⟩
  · simp only [hb, Option.bind_eq_bind, Option.bind_some]
    exact write_of_lt (by omega)
  · rw [Vector.getElem?_set, List.length_append, List.length_singleton]
    have hb' := ht (i + done.length + 1)
    rw [hb, if_neg (by omega)] at hb'
    split
    · rename_i hij
      subst hij
      rw [if_pos (by omega), ← hb']
    · rename_i hij
      rw [ht j]
      have hiff : i ≤ j ∧ j < i + (done.length + 1) ↔ i ≤ j ∧ j < i + done.length := by omega
      simp only [hiff]

theorem moveDown_eq (arr : Vector α n) {i k : Nat} (h : i + k < n) :
    ∃ arr', moveDown i k arr = some arr' ∧
      ∀ j, arr'[j]? = if i ≤ j ∧ j < i + k then arr[j + 1]? else arr[j]? := by
  have hloop : ∃ arr', moveDown i (List.range k).length arr = some arr' ∧
      ∀ j, arr'[j]? = if i ≤ j ∧ j < i + (List.range k).length then arr[j + 1]? else arr[j]? := by
    refine each_keeps (fun done arr' => ∀ j, arr'[j]? =
      if i ≤ j ∧ j < i + done.length then arr[j + 1]? else arr[j]?) (move_step h) fun j => ?_
    rw [if_neg (by simp only [List.length_nil]; omega)]
  rw [List.length_range] at hloop
  exact hloop

/-- Closing the gap at `i` takes the `i`-th element out of the list that the array holds. -/
theorem Holds.moveDown {R : β → α → Prop} {arr : Vector β n} {l : List α} (h : Holds R arr l)
    {i : Nat} (hi : i < l.length) :
    ∃ arr', Memory.moveDown i (l.length - 1 - i) arr = some arr' ∧ Holds R arr' (l.eraseIdx i) := by
  have hle := h.length_le
  obtain ⟨arr', hm, harr⟩ := moveDown_eq arr (i := i) (k := l.length - 1 - i) (by omega)
  refine ⟨arr', hm, fun j a ha => ?_⟩
  rw [List.getElem?_eraseIdx] at ha
  rw [harr j]
  split at ha
  · rename_i hj
    rw [if_neg (by omega)]
    exact h j a ha
  · rename_i hj
    have hlt : j + 1 < l.length := by
      by_contra hn
      rw [List.getElem?_eq_none (by omega)] at ha
      cases ha
    rw [if_pos (by omega)]
    exact h (j + 1) a ha

end Tito.Lib.Memory
