import Tito.Line

namespace Tito

open Lib

variable {I M : Type}

/-- The number that a group has in a run in which the group `g` was never admitted. -/
def shift (g h : Handle) : Handle := if h < g then h else h - 1

def unshift (g h : Handle) : Handle := if h < g then h else h + 1

theorem unshift_ne (g h : Handle) : unshift g h ≠ g := by
  unfold unshift
  split
  · rename_i hlt
    exact Nat.ne_of_lt hlt
  · rename_i hge
    exact Nat.ne_of_gt (Nat.lt_succ_of_le (Nat.le_of_not_lt hge))

theorem shift_unshift (g h : Handle) : shift g (unshift g h) = h := by
  unfold unshift
  split
  · rename_i hlt
    exact if_pos hlt
  · rename_i hge
    exact if_neg fun hlt => hge (Nat.lt_of_succ_lt hlt)

theorem unshift_shift {g h : Handle} (hne : h ≠ g) : unshift g (shift g h) = h := by
  unfold shift
  split
  · rename_i hlt
    exact if_pos hlt
  · rename_i hge
    have hgt : g < h := Nat.lt_of_le_of_ne (Nat.le_of_not_lt hge) (Ne.symm hne)
    have hpos : h - 1 + 1 = h := Nat.sub_add_cancel (Nat.lt_of_le_of_lt (Nat.zero_le g) hgt)
    have hnlt : ¬ h - 1 < g := Nat.not_lt_of_le (Nat.le_sub_one_of_lt hgt)
    rw [unshift, if_neg hnlt, hpos]

theorem shift_inj {g h k : Handle} (hh : h ≠ g) (hk : k ≠ g) (he : shift g h = shift g k) :
    h = k := by
  rw [← unshift_shift hh, ← unshift_shift hk, he]

/-- A group as it shows in a run without `g`. -/
def Entry.shifted (g : Handle) (e : Entry I M) : Entry I M := { e with handle := shift g e.handle }

namespace PlainQueue

/-- The line without the group `g`, as if it had never been admitted. -/
def without (g : Handle) (q : PlainQueue I M) : PlainQueue I M where
  strictOrder := q.strictOrder
  waiting := (q.waiting.filter fun e => decide (e.handle ≠ g)).map (Entry.shifted g)
  departed := fun h => (q.departed (unshift g h)).map (Entry.shifted g)
  arrivals := q.arrivals - 1

variable {g : Handle} {q : PlainQueue I M}

theorem find?_without {p p' : Entry I M → Bool}
    (hother : ∀ e ∈ q.waiting, e.handle ≠ g → p' (e.shifted g) = p e)
    (hself : ∀ e ∈ q.waiting, e.handle = g → p e = false) :
    (q.without g).waiting.find? p' = (q.waiting.find? p).map (Entry.shifted g) := by
  rw [without]
  dsimp only
  generalize q.waiting = l at hother hself
  induction l with
  | nil => rfl
  | cons e l ih =>
    have ih := ih (fun a ha => hother a (List.mem_cons_of_mem e ha))
      (fun a ha => hself a (List.mem_cons_of_mem e ha))
    by_cases he : e.handle = g
    · rw [List.filter_cons_of_neg (by simp [he]), ih,
        List.find?_cons_of_neg (by simp [hself e List.mem_cons_self he])]
    · have hp := hother e List.mem_cons_self he
      rw [List.filter_cons_of_pos (by simp [he]), List.map_cons, List.find?_cons,
        List.find?_cons, hp]
      cases p e with
      | true => rfl
      | false => exact ih

theorem look_without {h : Handle} (hh : h ≠ g) :
    (q.without g).look (shift g h) = (q.look h).map (Entry.shifted g) := by
  rw [look, look, Option.map_or]
  congr 1
  · refine find?_without (fun e _ he => ?_) fun e _ he => decide_eq_false fun hk => hh (hk ▸ he)
    exact decide_eq_decide.mpr ⟨fun hk => shift_inj he hh hk, fun hk => congrArg (shift g) hk⟩
  · rw [without]
    dsimp only
    rw [unshift_shift hh]

theorem remove_without {e : Entry I M} (he : e.handle ≠ g) :
    (q.remove e).without g = (q.without g).remove (e.shifted g) := by
  apply PlainQueue.ext
  · rfl
  · simp only [without, remove, List.filter_map, List.filter_filter]
    refine congrArg _ (List.filter_congr fun a _ => ?_)
    by_cases ha : a.handle = g
    · simp [ha]
    · have hs : shift g a.handle = shift g e.handle ↔ a.handle = e.handle :=
        ⟨shift_inj ha he, congrArg (shift g)⟩
      simp [Entry.shifted, hs, ha]
  · funext h
    simp only [without, remove, Function.update_apply]
    have hs : unshift g h = e.handle ↔ h = (e.shifted g).handle := by
      constructor
      · rintro hh
        rw [Entry.shifted, ← hh, shift_unshift]
      · rintro rfl
        exact unshift_shift he
    by_cases hh : h = (e.shifted g).handle
    · rw [if_pos hh, if_pos (hs.mpr hh)]
      rfl
    · rw [if_neg hh, if_neg (mt hs.mp hh)]
  · rfl

theorem remove_self_without {e : Entry I M} (he : e.handle = g) :
    (q.remove e).without g = q.without g := by
  apply PlainQueue.ext
  · rfl
  · simp only [without, remove, List.filter_filter, he, Bool.and_self]
  · funext h
    have hne : unshift g h ≠ e.handle := he ▸ unshift_ne g h
    simp only [without, remove, Function.update_of_ne hne]
  · rfl

theorem clear_without : q.clear.without g = (q.without g).clear := by
  apply PlainQueue.ext
  · rfl
  · rfl
  · funext h
    have hl := look_without (q := q) (unshift_ne g h)
    rw [shift_unshift] at hl
    exact hl.symm
  · rfl

theorem join_without {e : Entry I M} (he : e.handle = q.arrivals) (hg : g < q.arrivals) :
    (q.join e).without g = (q.without g).join (e.shifted g) := by
  have hne : e.handle ≠ g := he ▸ Nat.ne_of_gt hg
  apply PlainQueue.ext
  · rfl
  · simp [without, join, hne]
  · rfl
  · have hpos : 1 ≤ q.arrivals := Nat.lt_of_le_of_lt (Nat.zero_le g) hg
    exact (Nat.sub_add_cancel hpos).symm

/-- The newest group is the last of the line, so that without it the line is as before. -/
theorem join_self_without {e : Entry I M} (hq : q.Valid)
    (hd : ∀ h, q.arrivals ≤ h → q.departed h = none) (he : e.handle = q.arrivals) :
    (q.join e).without e.handle = q := by
  have hself : ∀ a : Entry I M, a.handle < e.handle → a.shifted e.handle = a := fun a ha => by
    rw [Entry.shifted, shift, if_pos ha]
  have hlt : ∀ a ∈ q.waiting, a.handle < e.handle := fun a ha => he ▸ hq.handle_lt a ha
  apply PlainQueue.ext
  · rfl
  · have hf : q.waiting.filter (fun a => decide (a.handle ≠ e.handle)) = q.waiting :=
      List.filter_eq_self.mpr fun a ha => decide_eq_true (Nat.ne_of_lt (hlt a ha))
    have hm : q.waiting.map (Entry.shifted e.handle) = q.waiting :=
      (List.map_congr_left fun a ha => hself a (hlt a ha)).trans (List.map_id _)
    rw [without, join, List.filter_append, hf, List.filter_cons_of_neg (by simp), List.filter_nil,
      List.append_nil, hm]
  · funext h
    simp only [without, join, unshift]
    by_cases hh : h < e.handle
    · rw [if_pos hh]
      cases hp : q.departed h with
      | none => rfl
      | some a => rw [Option.map_some, hself a (hq.departed_handle h a hp ▸ hh)]
    · have hle : q.arrivals ≤ h := he ▸ Nat.le_of_not_lt hh
      rw [if_neg hh, hd h hle, hd (h + 1) (Nat.le_succ_of_le hle), Option.map_none]
  · rfl

section

variable [DecidableEq M]

theorem shifted_markAt {h : Handle} (hh : h ≠ g) (m : M) {e : Entry I M} (he : e.handle ≠ g) :
    (Entry.markAt h m e).shifted g = Entry.markAt (shift g h) m (e.shifted g) := by
  have hs : (e.shifted g).handle = shift g h ↔ e.handle = h :=
    ⟨shift_inj he hh, congrArg (shift g)⟩
  by_cases hk : e.handle = h
  · rw [Entry.markAt, if_pos hk, Entry.markAt, if_pos (hs.mpr hk)]
    rfl
  · rw [Entry.markAt, if_neg hk, Entry.markAt, if_neg (mt hs.mp hk)]

theorem handle_markAt (h : Handle) (m : M) (e : Entry I M) :
    (Entry.markAt h m e).handle = e.handle := congrArg Prod.fst (Entry.ticket_markAt h m e)

theorem mark_without {h : Handle} (hh : h ≠ g) (m : M) (hq : q.Valid) :
    (q.mark h m).without g = (q.without g).mark (shift g h) m := by
  apply PlainQueue.ext
  · rfl
  · simp only [without, mark, List.filter_map, List.map_map, Function.comp_def, handle_markAt]
    refine List.map_congr_left fun e he => ?_
    exact shifted_markAt hh m (by simpa using (List.mem_filter.mp he).2)
  · funext k
    simp only [without, mark, Option.map_map]
    refine Option.map_congr fun e he => ?_
    have hk := hq.departed_handle _ _ he
    exact shifted_markAt hh m (hk ▸ unshift_ne g k)
  · rfl

theorem mark_self_without (m : M) (hq : q.Valid) : (q.mark g m).without g = q.without g := by
  have hother : ∀ {e : Entry I M}, e.handle ≠ g → Entry.markAt g m e = e := fun he => if_neg he
  apply PlainQueue.ext
  · rfl
  · simp only [without, mark, List.filter_map, List.map_map, Function.comp_def, handle_markAt]
    refine List.map_congr_left fun e he => ?_
    rw [hother (by simpa using (List.mem_filter.mp he).2)]
  · funext k
    simp only [without, mark, Option.map_map]
    refine Option.map_congr fun e he => ?_
    have hk := hq.departed_handle _ _ he
    rw [Function.comp_apply, hother (hk ▸ unshift_ne g k)]
  · rfl

theorem groupOf_without {m : M} (hg : ∀ e ∈ q.waiting, e.handle = g → m ∉ e.members) :
    (q.without g).groupOf m = (q.groupOf m).map (Entry.shifted g) :=
  find?_without (fun _ _ _ => rfl) fun e he hk => decide_eq_false (hg e he hk)

end

theorem find_without [DecidableEq I] {id : Value I}
    (hg : ∀ e ∈ q.waiting, e.handle = g → e.groupId ≠ id) :
    (q.without g).find id = (q.find id).map (Entry.shifted g) := by
  cases id with
  | unhashable t => rfl
  | hashable i => exact find?_without (fun _ _ _ => rfl) fun e he hk => decide_eq_false (hg e he hk)

/-- A `peek` passes a group over that has left, or that is not ready in a relaxed queue. -/
theorem peek_without
    (hg : ∀ e ∈ q.waiting, e.handle = g → q.strictOrder = false ∧ e.ready = false) :
    (q.without g).peek = q.peek.map (Entry.shifted g) := by
  have hpolicy : (q.without g).strictOrder = q.strictOrder := rfl
  cases hs : q.strictOrder with
  | true =>
    have hgone : q.waiting.filter (fun e => decide (e.handle ≠ g)) = q.waiting := by
      refine List.filter_eq_self.mpr fun e he => decide_eq_true fun hh => ?_
      exact Bool.false_ne_true ((hg e he hh).1.symm.trans hs)
    have hw : (q.without g).waiting = q.waiting.map (Entry.shifted g) := by rw [without, hgone]
    rw [peek, peek, hpolicy, hs, if_pos rfl, if_pos rfl, hw, List.head?_map, Option.filter_map]
    rfl
  | false =>
    have hfind : (q.without g).waiting.find? Entry.ready =
        (q.waiting.find? Entry.ready).map (Entry.shifted g) :=
      find?_without (fun _ _ _ => rfl) fun e he hh => (hg e he hh).2
    rw [peek, peek, hpolicy, hs, if_neg Bool.false_ne_true, if_neg Bool.false_ne_true, hfind]

theorem peek_ne (hg : ∀ e ∈ q.waiting, e.handle = g → q.strictOrder = false ∧ e.ready = false)
    {e : Entry I M} (h : q.peek = some e) : e.handle ≠ g := by
  intro hh
  obtain ⟨he, hr⟩ := peek_mem h
  exact Bool.false_ne_true ((hg e he hh).2.symm.trans hr)

theorem releaseUpTo_eq_of_le {n k : Nat} (hn : q.waiting.length ≤ n) (hk : q.waiting.length ≤ k) :
    q.releaseUpTo n = q.releaseUpTo k := by
  induction n generalizing q k with
  | zero =>
    have hw : q.waiting = [] := List.eq_nil_of_length_eq_zero (Nat.le_zero.mp hn)
    have hp : q.peek = none := by
      rw [peek, hw]
      split <;> rfl
    cases k with
    | zero => rfl
    | succ k => rw [releaseUpTo, releaseUpTo, hp]
  | succ n ih =>
    cases hp : q.peek with
    | none => cases k <;> simp only [releaseUpTo, hp]
    | some e =>
      have hlt := length_remove_lt (peek_mem hp).1
      cases k with
      | zero => exact absurd (Nat.lt_of_lt_of_le hlt hk) (Nat.not_lt_zero _)
      | succ k =>
        have hrest := ih (q := q.remove e) (k := k)
          (Nat.le_of_lt_succ (Nat.lt_of_lt_of_le hlt hn))
          (Nat.le_of_lt_succ (Nat.lt_of_lt_of_le hlt hk))
        rw [releaseUpTo, releaseUpTo, hp]
        dsimp only
        rw [hrest]

theorem releaseUpTo_without (n : Nat)
    (hg : ∀ e ∈ q.waiting, e.handle = g → q.strictOrder = false ∧ e.ready = false) :
    (q.without g).releaseUpTo n =
      ((q.releaseUpTo n).1.map (Entry.shifted g), (q.releaseUpTo n).2.without g) := by
  induction n generalizing q with
  | zero => rfl
  | succ n ih =>
    rw [releaseUpTo, releaseUpTo, peek_without hg]
    cases hp : q.peek with
    | none => rfl
    | some e =>
      have hrest := ih (q := q.remove e) fun a ha => hg a (List.mem_of_mem_filter ha)
      rw [remove_without (peek_ne hg hp)] at hrest
      rw [Option.map_some]
      dsimp only
      rw [hrest]
      rfl

end PlainQueue

end Tito
