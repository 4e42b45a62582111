import Tito.Lib.Memory

namespace Tito.Lib.Memory

variable {n : Nat}

/-- The characters of a C string, without the NUL that ends it. -/
structure CString where
  chars : List UInt8
  no_nul : 0 ∉ chars
  deriving DecidableEq

theorem CString.chars_injective : Function.Injective CString.chars := by
  rintro ⟨s, hs⟩ ⟨t, ht⟩ rfl
  rfl

/-- The array has the text from `i` on and a NUL behind it. -/
def Stored (buf : Vector UInt8 n) : Nat → List UInt8 → Prop
  | i, [] => buf[i]? = some 0
  | i, c :: text => buf[i]? = some c ∧ Stored buf (i + 1) text

/-- `strcmp(buf + i, text) == 0`, read character by character. -/
def sameText (buf : Vector UInt8 n) : Nat → List UInt8 → Option Bool
  | i, [] => do return (← buf[i]?) == 0
  | i, c :: text => do if (← buf[i]?) == c then sameText buf (i + 1) text else return false

/-- The characters from `i` up to the next NUL. -/
def textAt (buf : Vector UInt8 n) (i : Nat) : Option (List UInt8) :=
  if h : i < n then
    if buf[i] = 0 then some [] else (textAt buf (i + 1)).map (buf[i] :: ·)
  else none
termination_by n - i

/-- Copy a text to `i` as far as it fits with its NUL, and return where the NUL is. -/
def put (buf : Vector UInt8 n) : Nat → List UInt8 → Option (Vector UInt8 n × Nat)
  | i, [] => do return (← write buf i 0, i)
  | i, c :: text =>
    if i + 1 < n then do put (← write buf i c) (i + 1) text
    else do return (← write buf i 0, i)

def clip (n : Nat) (text : List UInt8) : List UInt8 := text.take (n - 1)

variable {buf : Vector UInt8 n}

theorem sameText_eq {i : Nat} {s t : List UInt8} (hs : Stored buf i s) (hs0 : 0 ∉ s)
    (ht0 : 0 ∉ t) : sameText buf i t = some (decide (s = t)) := by
  induction t generalizing i s with
  | nil =>
    cases s with
    | nil =>
      have hb : buf[i]? = some 0 := hs
      rw [sameText, hb]
      rfl
    | cons b s =>
      have hne : b ≠ 0 := fun h => hs0 (h ▸ List.mem_cons_self)
      rw [sameText, hs.1]
      simp [hne]
  | cons c t ih =>
    cases s with
    | nil =>
      have hb : buf[i]? = some 0 := hs
      have hne : c ≠ 0 := fun h => ht0 (h ▸ List.mem_cons_self)
      rw [sameText, hb]
      simp [hne.symm]
    | cons b s =>
      rw [sameText, hs.1, Option.bind_eq_bind, Option.bind_some]
      by_cases hbc : b = c
      · have hrest := ih hs.2 (fun h => hs0 (List.mem_cons_of_mem b h))
          fun h => ht0 (List.mem_cons_of_mem c h)
        simp [hbc, hrest]
      · simp [hbc]

theorem textAt_eq {i : Nat} {s : List UInt8} (hs : Stored buf i s) (hs0 : 0 ∉ s) :
    textAt buf i = some s := by
  induction s generalizing i with
  | nil =>
    obtain ⟨hi, hb⟩ := Vector.getElem?_eq_some_iff.mp hs
    rw [textAt, dif_pos hi, if_pos hb]
  | cons c s ih =>
    obtain ⟨hi, hb⟩ := Vector.getElem?_eq_some_iff.mp hs.1
    have hne : c ≠ 0 := fun h => hs0 (h ▸ List.mem_cons_self)
    rw [textAt, dif_pos hi, hb, if_neg hne, ih hs.2 fun h => hs0 (List.mem_cons_of_mem c h)]
    rfl

theorem Stored.append {i : Nat} {s t : List UInt8} :
    Stored buf i (s ++ t) ↔ (∀ (j : Nat) (c : UInt8), s[j]? = some c → buf[i + j]? = some c) ∧
      Stored buf (i + s.length) t := by
  induction s generalizing i with
  | nil => simp
  | cons b s ih =>
    rw [List.cons_append, Stored, ih, List.length_cons, Nat.add_right_comm i 1 s.length,
      ← Nat.add_assoc]
    constructor
    · rintro ⟨hb, hs, ht⟩
      refine ⟨fun j c hc => ?_, ht⟩
      cases j with
      | zero => rwa [← Option.some.inj hc]
      | succ j =>
        rw [Nat.add_comm j 1, ← Nat.add_assoc]
        exact hs j c hc
    · rintro ⟨hs, ht⟩
      refine ⟨hs 0 b rfl, fun j c hc => ?_, ht⟩
      rw [Nat.add_assoc, Nat.add_comm 1 j]
      exact hs (j + 1) c hc

theorem Stored.length_lt {i : Nat} {s : List UInt8} (hs : Stored buf i s) : i + s.length < n := by
  induction s generalizing i with
  | nil => exact lt_of_getElem? hs
  | cons c s ih =>
    have := ih hs.2
    rw [List.length_cons]
    omega

/-- What `put` writes is the text, cut off where the array ends; what is before stays. -/
theorem put_eq (buf : Vector UInt8 n) {i : Nat} (hi : i < n) (text : List UInt8) :
    ∃ buf', put buf i text = some (buf', i + (text.take (n - 1 - i)).length) ∧
      Stored buf' i (text.take (n - 1 - i)) ∧ ∀ j, j < i → buf'[j]? = buf[j]? := by
  have hend : ∀ (buf : Vector UInt8 n) {i : Nat}, i < n → ∃ buf', write buf i 0 = some buf' ∧
      Stored buf' i [] ∧ ∀ j, j < i → buf'[j]? = buf[j]? := fun buf i hi =>
    ⟨buf.set i 0 hi, write_of_lt hi, Vector.getElem?_set_self hi,
      fun j hj => Vector.getElem?_set_ne hi (Nat.ne_of_gt hj)⟩
  induction text generalizing buf i with
  | nil =>
    obtain ⟨buf', hb, hs, hframe⟩ := hend buf hi
    refine ⟨buf', ?_, by rwa [List.take_nil], hframe⟩
    rw [put, hb, List.take_nil]
    rfl
  | cons c text ih =>
    by_cases hroom : i + 1 < n
    · obtain ⟨buf', hput, hs, hframe⟩ := ih (buf.set i c hi) hroom
      have htake : (c :: text).take (n - 1 - i) = c :: text.take (n - 1 - (i + 1)) := by
        rw [show n - 1 - i = n - 1 - (i + 1) + 1 by omega, List.take_succ_cons]
      refine ⟨buf', ?_, ?_, fun j hj => ?_⟩
      · rw [put, if_pos hroom, write_of_lt hi, Option.bind_eq_bind, Option.bind_some, hput, htake,
          List.length_cons, Nat.add_assoc, Nat.add_comm 1]
      · rw [htake]
        refine ⟨?_, hs⟩
        rw [hframe i (Nat.lt_succ_self i)]
        exact Vector.getElem?_set_self hi
      · rw [hframe j (by omega)]
        exact Vector.getElem?_set_ne hi (Nat.ne_of_gt hj)
    · obtain ⟨buf', hb, hs, hframe⟩ := hend buf hi
      have htake : (c :: text).take (n - 1 - i) = [] := by
        rw [show n - 1 - i = 0 by omega, List.take_zero]
      refine ⟨buf', ?_, by rwa [htake], hframe⟩
      rw [put, if_neg hroom, hb, htake]
      rfl

theorem put_zero (hn : 0 < n) (buf : Vector UInt8 n) (text : List UInt8) :
    ∃ buf', put buf 0 text = some (buf', (clip n text).length) ∧ Stored buf' 0 (clip n text) := by
  obtain ⟨buf', hput, hs, -⟩ := put_eq buf hn text
  rw [Nat.zero_add] at hput
  exact ⟨buf', hput, hs⟩

theorem clip_append (n : Nat) (s t : List UInt8) : clip n (clip n s ++ t) = clip n (s ++ t) := by
  rw [clip, clip, clip, List.take_append, List.take_append, List.take_take, Nat.min_self,
    List.length_take]
  congr 2
  omega

theorem put_concat {s : List UInt8} (hs : Stored buf 0 (clip n s)) (t : List UInt8) :
    ∃ buf', put buf (clip n s).length t = some (buf', (clip n (s ++ t)).length) ∧
      Stored buf' 0 (clip n (s ++ t)) := by
  have hlt := hs.length_lt
  rw [Nat.zero_add] at hlt
  obtain ⟨buf', hput, ht, hframe⟩ := put_eq buf hlt t
  have hclip : clip n (s ++ t) = clip n s ++ t.take (n - 1 - (clip n s).length) := by
    rw [← clip_append, clip, List.take_append, List.take_of_length_le (by omega)]
  have hprefix : Stored buf 0 (clip n s ++ []) := by rwa [List.append_nil]
  have hchars := (Stored.append.mp hprefix).1
  refine ⟨buf', ?_, ?_⟩
  · rw [hclip, List.length_append]
    exact hput
  · rw [hclip]
    refine Stored.append.mpr ⟨fun j c hc => ?_, by rwa [Nat.zero_add]⟩
    have hj : j < (clip n s).length := (List.getElem?_eq_some_iff.mp hc).1
    rw [Nat.zero_add, hframe j hj, ← hchars j c hc, Nat.zero_add]

end Tito.Lib.Memory
