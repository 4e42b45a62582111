import Tito.Refinement

namespace Tito

open Lib Lib.Mealy Lib.Search

variable {I M : Type}

/-- The groups that a call hands out to its caller for good. -/
def handedOut : Op I M → Outcome I M → List (Entry I M)
  | .cancel _, .ok (.group e) => [e]
  | .release, .ok (.group e) => [e]
  | .releaseAll, .ok (.groups es) => es
  | .clear, .ok (.groups es) => es
  | _, _ => []

/-- The groups that a call takes in. -/
def admitted : Op I M → Outcome I M → List (Entry I M)
  | .admitGroup _ _, .ok (.group e) => [e]
  | _, _ => []

/-- What stays the same of a group for good: the object, its id and its members. -/
def Entry.ticket (e : Entry I M) : Handle × Value I × List M := (e.handle, e.groupId, e.members)

namespace PlainQueue

/-- A line as runs leave it: in order of arrival, and with no member in two of its groups. -/
structure Valid (q : PlainQueue I M) : Prop where
  ordered : q.waiting.Pairwise fun e e' => e.handle < e'.handle
  handle_lt : ∀ e ∈ q.waiting, e.handle < q.arrivals
  id_unique : ∀ e ∈ q.waiting, ∀ e' ∈ q.waiting, e.groupId = e'.groupId → e = e'
  member_unique : ∀ e ∈ q.waiting, ∀ e' ∈ q.waiting, ∀ m ∈ e.members, m ∈ e'.members → e = e'
  departed_handle : ∀ h e, q.departed h = some e → e.handle = h

variable {q : PlainQueue I M}

theorem Valid.handles_nodup (hq : q.Valid) : (q.waiting.map Entry.handle).Nodup := by
  rw [List.Nodup, List.pairwise_map]
  exact hq.ordered.imp Nat.ne_of_lt

theorem Valid.handle_unique (hq : q.Valid) {e e' : Entry I M} (he : e ∈ q.waiting)
    (he' : e' ∈ q.waiting) (h : e.handle = e'.handle) : e = e' :=
  List.inj_on_of_nodup_map hq.handles_nodup he he' h

theorem Valid.look_eq (hq : q.Valid) {e : Entry I M} (he : e ∈ q.waiting) :
    q.look e.handle = some e := by
  have hf : q.waiting.find? (fun a => decide (a.handle = e.handle)) = some e :=
    find?_eq_some_of_unique he (decide_eq_true rfl) fun a ha hk =>
      hq.handle_unique ha he (of_decide_eq_true hk)
  rw [look, hf]
  rfl

theorem Valid.groupOf_eq [DecidableEq M] (hq : q.Valid) {e : Entry I M} (he : e ∈ q.waiting)
    {m : M} (hm : m ∈ e.members) : q.groupOf m = some e :=
  find?_eq_some_of_unique he (decide_eq_true hm) fun a ha hk =>
    hq.member_unique a ha e he m (of_decide_eq_true hk) hm

theorem Valid.find_eq [DecidableEq I] (hq : q.Valid) {e : Entry I M} (he : e ∈ q.waiting) {id : I}
    (hid : e.groupId = .hashable id) : q.find (.hashable id) = some e :=
  find?_eq_some_of_unique he (decide_eq_true hid) fun a ha hk =>
    hq.id_unique a ha e he ((of_decide_eq_true hk).trans hid.symm)

theorem Valid.waiting_remove (hq : q.Valid) {e : Entry I M} {before after : List (Entry I M)}
    (hl : q.waiting = before ++ e :: after) : (q.remove e).waiting = before ++ after := by
  have ho := hq.ordered
  rw [hl, List.pairwise_append, List.pairwise_cons] at ho
  have hb : before.filter (fun e' => decide (e'.handle ≠ e.handle)) = before :=
    List.filter_eq_self.mpr fun a ha =>
      decide_eq_true (Nat.ne_of_lt (ho.2.2 a ha e List.mem_cons_self))
  have ha : after.filter (fun e' => decide (e'.handle ≠ e.handle)) = after :=
    List.filter_eq_self.mpr fun a ha => decide_eq_true (Nat.ne_of_gt (ho.2.1.1 a ha))
  rw [remove, hl, List.filter_append, List.filter_cons_of_neg (by simp), hb, ha]

theorem Valid.remove_perm (hq : q.Valid) {e : Entry I M} (he : e ∈ q.waiting) :
    (e :: (q.remove e).waiting).Perm q.waiting := by
  obtain ⟨before, after, hl⟩ := List.append_of_mem he
  rw [hq.waiting_remove hl, hl]
  exact List.perm_middle.symm

theorem Valid.look_handle (hq : q.Valid) {h : Handle} {e : Entry I M} (he : q.look h = some e) :
    e.handle = h := by
  rw [look, Option.or_eq_some_iff] at he
  rcases he with he | ⟨-, he⟩
  · simpa using List.find?_some he
  · exact hq.departed_handle h e he

theorem Valid.remove (hq : q.Valid) (e : Entry I M) : (q.remove e).Valid where
  ordered := hq.ordered.filter _
  handle_lt := fun a ha => hq.handle_lt a (List.mem_of_mem_filter ha)
  id_unique := fun a ha b hb =>
    hq.id_unique a (List.mem_of_mem_filter ha) b (List.mem_of_mem_filter hb)
  member_unique := fun a ha b hb =>
    hq.member_unique a (List.mem_of_mem_filter ha) b (List.mem_of_mem_filter hb)
  departed_handle := by
    intro h a ha
    simp only [PlainQueue.remove] at ha
    by_cases hh : h = e.handle
    · subst hh
      rw [Function.update_self] at ha
      rw [Option.some.inj ha]
    · rw [Function.update_of_ne hh] at ha
      exact hq.departed_handle h a ha

theorem Valid.releaseUpTo_perm (hq : q.Valid) (n : Nat) :
    ((q.releaseUpTo n).1 ++ (q.releaseUpTo n).2.waiting).Perm q.waiting := by
  induction n generalizing q with
  | zero => exact List.Perm.refl _
  | succ n ih =>
    rw [releaseUpTo]
    cases hp : q.peek with
    | none => exact List.Perm.refl _
    | some e => exact ((ih (hq.remove e)).cons e).trans (hq.remove_perm (peek_mem hp).1)

theorem releaseUpTo_constants (n : Nat) (q : PlainQueue I M) :
    (q.releaseUpTo n).2.arrivals = q.arrivals ∧
      (q.releaseUpTo n).2.strictOrder = q.strictOrder := by
  induction n generalizing q with
  | zero => exact ⟨rfl, rfl⟩
  | succ n ih =>
    rw [releaseUpTo]
    split
    · exact ⟨rfl, rfl⟩
    · exact ih _

end PlainQueue

variable [DecidableEq I] [DecidableEq M]

theorem Consistent.plain_valid {w : World I M} (hw : Consistent w) : w.plain.Valid where
  ordered := hw.ordered_waiting
  handle_lt := fun e he => hw.lt_sequence (World.mem_waiting.mp he).1
  id_unique := by
    intro e he e' he' hid
    obtain ⟨hh, hl⟩ := World.mem_waiting.mp he
    obtain ⟨hh', hl'⟩ := World.mem_waiting.mp he'
    obtain ⟨i, g, hi, hg, hgi⟩ := hw.waiting hh
    obtain ⟨i', g', hi', hg', hgi'⟩ := hw.waiting hh'
    have he₁ : g.entry e.handle = e := Option.some.inj
      ((World.look_eq_some.mpr ⟨g, hg, rfl⟩).symm.trans hl)
    have he₂ : g'.entry e'.handle = e' := Option.some.inj
      ((World.look_eq_some.mpr ⟨g', hg', rfl⟩).symm.trans hl')
    rw [← he₁, ← he₂] at hid
    obtain rfl : i = i' := Value.hashable.inj (hgi.symm.trans (hid.trans hgi'))
    have hsame : e.handle = e'.handle := Option.some.inj (hi.symm.trans hi')
    rw [hsame] at hl
    exact Option.some.inj (hl.symm.trans hl')
  member_unique := by
    intro e he e' he' m hm hm'
    obtain ⟨hh, hl⟩ := World.mem_waiting.mp he
    obtain ⟨hh', hl'⟩ := World.mem_waiting.mp he'
    obtain ⟨g, hg, hge⟩ := World.look_eq_some.mp hl
    obtain ⟨g', hg', hge'⟩ := World.look_eq_some.mp hl'
    rw [← hge, g.members_entry] at hm
    rw [← hge', g'.members_entry] at hm'
    rw [hw.member_unique hh hh' hg hg' hm hm', hl'] at hl
    exact (Option.some.inj hl).symm
  departed_handle := by
    intro h e he
    simp only [World.plain] at he
    split at he
    · cases he
    · exact World.look_handle he

theorem Consistent.departed_eq_none {w : World I M} (hw : Consistent w) {h : Handle}
    (hh : w.plain.arrivals ≤ h) : w.plain.departed h = none := by
  have hlen : w.objects.length ≤ h := hw.counted.trans_le hh
  simp only [World.plain, World.look, List.getElem?_eq_none hlen, Option.map_none, ite_self]

namespace PlainQueue

/-- `q'` differs from `q` in flags at most. -/
structure SameLine (q q' : PlainQueue I M) : Prop where
  tickets : q'.waiting.map Entry.ticket = q.waiting.map Entry.ticket
  arrivals : q'.arrivals = q.arrivals
  policy : q'.strictOrder = q.strictOrder

omit [DecidableEq I] [DecidableEq M] in
theorem SameLine.refl (q : PlainQueue I M) : SameLine q q := ⟨rfl, rfl, rfl⟩

omit [DecidableEq I] in
theorem Entry.ticket_markAt (h : Handle) (m : M) (e : Entry I M) :
    (Entry.markAt h m e).ticket = e.ticket := by
  rw [Entry.markAt]
  split
  · have hf : (e.mark m).members = e.members := by
      rw [Entry.members, Entry.mark, List.map_map]
      refine List.map_congr_left fun f _ => ?_
      by_cases hm : f.1 = m <;> simp [hm]
    simp only [Entry.ticket, hf]
    rfl
  · rfl

omit [DecidableEq I] in
theorem mark_sameLine (q : PlainQueue I M) (h : Handle) (m : M) : SameLine q (q.mark h m) where
  tickets := by
    rw [mark, List.map_map]
    exact List.map_congr_left fun e _ => Entry.ticket_markAt h m e
  arrivals := rfl
  policy := rfl

omit [DecidableEq I] in
theorem foldl_mark_sameLine (h : Handle) (ms : List M) (q : PlainQueue I M) :
    SameLine q (ms.foldl (fun q m => q.mark h m) q) := by
  induction ms generalizing q with
  | nil => exact .refl q
  | cons m ms ih =>
    have h₁ := mark_sameLine q h m
    have h₂ := ih (q.mark h m)
    exact ⟨h₂.tickets.trans h₁.tickets, h₂.arrivals.trans h₁.arrivals, h₂.policy.trans h₁.policy⟩

omit [DecidableEq I] in
theorem groupMarkReady_sameLine (q : PlainQueue I M) (h : Handle) (v : Value M) :
    SameLine q (q.groupMarkReady h v).2 := by
  rw [groupMarkReady]
  split
  · exact .refl q
  · split
    · exact .refl q
    · split
      · exact mark_sameLine q h _
      · exact .refl q

omit [DecidableEq M] in
theorem find_mem {q : PlainQueue I M} {groupId : Value I} {e : Entry I M}
    (h : q.find groupId = some e) : e ∈ q.waiting ∧ e.groupId = groupId := by
  cases groupId with
  | unhashable t => cases h
  | hashable id => exact ⟨List.mem_of_find?_eq_some h, by simpa using List.find?_some h⟩

/-- What a call did to the line, in terms of what it handed out and took in. -/
structure Conserved (q : PlainQueue I M) (departures arrivals : List (Entry I M))
    (q' : PlainQueue I M) : Prop where
  perm : ((departures ++ q'.waiting).map Entry.ticket).Perm
    ((q.waiting ++ arrivals).map Entry.ticket)
  counted : q'.arrivals = q.arrivals + arrivals.length
  numbered : arrivals.map Entry.handle = List.range' q.arrivals arrivals.length
  policy : q'.strictOrder = q.strictOrder

omit [DecidableEq I] [DecidableEq M] in
theorem SameLine.conserved {q q' : PlainQueue I M} (h : SameLine q q') : Conserved q [] [] q' where
  perm := by
    rw [List.nil_append, List.append_nil, h.tickets]
  counted := h.arrivals
  numbered := rfl
  policy := h.policy

omit [DecidableEq I] [DecidableEq M] in
theorem conserved_of_departures {q q' : PlainQueue I M} {es : List (Entry I M)}
    (h : (es ++ q'.waiting).Perm q.waiting) (ha : q'.arrivals = q.arrivals)
    (hp : q'.strictOrder = q.strictOrder) : Conserved q es [] q' where
  perm := by
    rw [List.append_nil]
    exact h.map _
  counted := ha
  numbered := rfl
  policy := hp

omit [DecidableEq I] [DecidableEq M] in
theorem Conserved.handles {q q' : PlainQueue I M} {departures arrivals : List (Entry I M)}
    (h : Conserved q departures arrivals q') :
    (departures.map Entry.handle ++ q'.waiting.map Entry.handle).Perm
      (q.waiting.map Entry.handle ++ List.range' q.arrivals arrivals.length) := by
  have hp := h.perm.map Prod.fst
  rw [List.map_map, List.map_map, List.map_append, List.map_append] at hp
  rw [← h.numbered]
  exact hp

omit [DecidableEq I] [DecidableEq M] in
theorem Conserved.handles_nodup {q q' : PlainQueue I M} {departures arrivals : List (Entry I M)}
    (h : Conserved q departures arrivals q') (hq : q.Valid) :
    (departures.map Entry.handle ++ q'.waiting.map Entry.handle).Nodup := by
  refine h.handles.nodup_iff.mpr (List.nodup_append.mpr ⟨hq.handles_nodup, List.nodup_range', ?_⟩)
  rintro j hj k hk rfl
  obtain ⟨a, ha, rfl⟩ := List.mem_map.mp hj
  exact Nat.not_le_of_lt (hq.handle_lt a ha) (List.mem_range'_1.mp hk).1

/-- No call loses a group, duplicates one, or changes its members. -/
theorem step_conserved {q : PlainQueue I M} (hq : q.Valid) (op : Op I M) :
    Conserved q (handedOut op (q.step op).1) (admitted op (q.step op).1) (q.step op).2 := by
  cases op with
  | admitGroup groupId members =>
    rcases q.admit_cases groupId members with ⟨e, ha⟩ | ⟨id, ms, _, _, _, ha⟩
    · rw [step, ha]
      exact (SameLine.refl q).conserved
    · rw [step, ha]
      exact ⟨List.Perm.refl _, rfl, rfl, rfl⟩
  | markReady member =>
    simp only [step, markReady]
    cases member.toOption.bind q.groupOf with
    | none => exact (SameLine.refl q).conserved
    | some e => exact (groupMarkReady_sameLine q e.handle member).conserved
  | markGroupReady groupId =>
    simp only [step, markGroupReady]
    cases q.find groupId with
    | none => exact (SameLine.refl q).conserved
    | some e => exact (foldl_mark_sameLine e.handle e.members q).conserved
  | cancel groupId =>
    simp only [step, cancel]
    cases hf : q.find groupId with
    | none => exact (SameLine.refl q).conserved
    | some e => exact conserved_of_departures (hq.remove_perm (find_mem hf).1) rfl rfl
  | clear => exact conserved_of_departures (List.Perm.of_eq (List.append_nil _)) rfl rfl
  | release =>
    simp only [step]
    cases hp : q.peek with
    | none => exact (SameLine.refl q).conserved
    | some e => exact conserved_of_departures (hq.remove_perm (peek_mem hp).1) rfl rfl
  | releaseAll =>
    obtain ⟨ha, hp⟩ := releaseUpTo_constants q.waiting.length q
    exact conserved_of_departures (hq.releaseUpTo_perm _) ha hp
  | groupMarkReady group member => exact (groupMarkReady_sameLine q group member).conserved
  | _ => exact (SameLine.refl q).conserved

theorem admit_given {q : PlainQueue I M} {groupId : Value I} {members : Members M}
    {e : Entry I M} (h : (q.admitGroup groupId members).1 = .ok (.group e)) :
    e.groupId = groupId ∧ members = .iterable (e.members.map .hashable) := by
  rcases q.admit_cases groupId members with ⟨err, ha⟩ | ⟨id, ms, rfl, rfl, _, ha⟩
  · rw [ha] at h
    cases h
  · rw [ha] at h
    cases h
    exact ⟨rfl, by rw [arrival_members]⟩

omit [DecidableEq I] [DecidableEq M] in
theorem releaseUpTo_ready (n : Nat) (q : PlainQueue I M) :
    ∀ e ∈ (q.releaseUpTo n).1, e.ready = true := by
  induction n generalizing q with
  | zero => simp [releaseUpTo]
  | succ n ih =>
    rw [releaseUpTo]
    cases hp : q.peek with
    | none => simp
    | some e =>
      intro a ha
      rcases List.mem_cons.mp ha with rfl | ha
      · exact (peek_mem hp).2
      · exact ih _ a ha

theorem step_released {q : PlainQueue I M} {op : Op I M} (h : op = .release ∨ op = .releaseAll) :
    ∀ e ∈ handedOut op (q.step op).1, e.ready = true := by
  rcases h with rfl | rfl
  · simp only [step]
    cases hp : q.peek with
    | none => simp [shown, handedOut]
    | some e => simpa [shown, handedOut] using (peek_mem hp).2
  · exact releaseUpTo_ready _ q

end PlainQueue

theorem step_conserved {w : World I M} (hw : Consistent w) (op : Op I M) :
    PlainQueue.Conserved w.plain (handedOut op (step w op).1) (admitted op (step w op).1)
      (step w op).2.plain := by
  have hc := PlainQueue.step_conserved hw.plain_valid op
  rwa [← step_plain hw] at hc

theorem final_strictOrder (strictOrder : Bool) (ops : List (Op I M)) :
    (final step (World.init strictOrder) ops).strictOrder = strictOrder := by
  let P (w : World I M) : Prop := Consistent w ∧ w.strictOrder = strictOrder
  have hP : ∀ w op, P w → P (step w op).2 := by
    rintro w op ⟨hw, hs⟩
    exact ⟨step_consistent hw op, (step_conserved hw op).policy.trans hs⟩
  exact (invariant hP ⟨init_consistent strictOrder, rfl⟩ ops).2

theorem handles_admitted (strictOrder : Bool) (ops : List (Op I M)) :
    (collected step admitted (World.init strictOrder) ops).map Entry.handle =
      List.range (final step (World.init strictOrder) ops).sequence := by
  let P (es : List (Entry I M)) (w : World I M) : Prop :=
    Consistent w ∧ es.map Entry.handle = List.range w.sequence
  have hP : ∀ es w op, P es w → P (es ++ admitted op (step w op).1) (step w op).2 := by
    rintro es w op ⟨hw, hes⟩
    have hc := step_conserved hw op
    have hseq : (step w op).2.sequence = w.sequence + (admitted op (step w op).1).length :=
      hc.counted
    refine ⟨step_consistent hw op, ?_⟩
    rw [List.map_append, hes, hc.numbered, hseq, List.range_eq_range', List.range_eq_range',
      ← List.range'_append_1, Nat.zero_add]
    rfl
  exact (collected_invariant hP (l := []) ⟨init_consistent strictOrder, rfl⟩ ops).2

end Tito
