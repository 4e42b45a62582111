import Tito.BulkCancel
import Tito.Invisible

namespace Tito

open Lib Lib.Mealy

variable {I M : Type}

/-- A mark of members of `e`, by any of the three routes. -/
def Signal.About (e : Entry I M) : Signal I M → Prop
  | .member m => m ∈ e.members
  | .handle h m => h = e.handle ∧ m ∈ e.members
  | .group id => e.groupId = .hashable id

/-- The call that a caller makes in place of `op` once the number `g` has been used up. -/
def Op.unshifted (g : Handle) : Op I M → Op I M
  | .groupMarkReady h member => .groupMarkReady (unshift g h) member
  | op => op

/-- A call as it is made where `g` was never admitted, and has no handle. -/
def Op.unaware (g : Handle) : Op I M → Option (Op I M)
  | .groupMarkReady h member => if h = g then none else some (.groupMarkReady (shift g h) member)
  | op => some op

def renumbered (g : Handle) (o : Outcome I M) : Outcome I M := o.map (Answer.shifted g)

theorem Op.unaware_unshifted (g : Handle) (op : Op I M) : (op.unshifted g).unaware g = some op := by
  cases op with
  | groupMarkReady h v => rw [Op.unshifted, Op.unaware, if_neg (unshift_ne g h), shift_unshift]
  | _ => rfl

theorem Op.unaware_eq_some {g : Handle} {op op' : Op I M} (h : op.unaware g = some op') :
    op' = op.shifted g ∧ ∀ k v, op = .groupMarkReady k v → k ≠ g := by
  cases op with
  | groupMarkReady k v =>
    rw [Op.unaware] at h
    split at h
    · cases h
    · rename_i hk
      refine ⟨(Option.some.inj h).symm, ?_⟩
      rintro _ _ he
      rwa [← (Op.groupMarkReady.inj he).1]
  | _ => exact ⟨(Option.some.inj h).symm, fun _ _ he => nomatch he⟩

theorem Op.unaware_eq_none {g : Handle} {op : Op I M} (h : op.unaware g = none) :
    ∃ v, op = .groupMarkReady g v := by
  cases op with
  | groupMarkReady k v =>
    rw [Op.unaware] at h
    split at h
    · rename_i hk
      exact ⟨v, hk ▸ rfl⟩
    · cases h
  | _ => cases h

variable [DecidableEq M]

theorem Entry.marked_of_foreign {l : List (Handle × M)} {e : Entry I M}
    (h : ∀ p ∈ l, p.1 ≠ e.handle) : e.marked l = e := by
  have hf : e.flags.map (fun f => if (e.handle, f.1) ∈ l then (f.1, true) else f) = e.flags := by
    refine (List.map_congr_left fun f _ => ?_).trans (List.map_id _)
    exact if_neg fun hm => h _ hm rfl
  rw [Entry.marked, hf]

namespace PlainQueue

variable {q : PlainQueue I M}

theorem Valid.marks_join (hq : q.Valid) (hd : ∀ h, q.arrivals ≤ h → q.departed h = none)
    {e : Entry I M} (he : e.handle = q.arrivals) {l : List (Handle × M)}
    (hl : ∀ p ∈ l, p.1 = e.handle) : (q.join e).marks l = q.join (e.marked l) := by
  have hother : ∀ a : Entry I M, a.handle < q.arrivals → a.marked l = a := by
    refine fun a ha => Entry.marked_of_foreign fun p hp hpa => ?_
    exact Nat.ne_of_lt ha (by rw [← hpa, hl p hp, he])
  apply PlainQueue.ext
  · rfl
  · have hold : q.waiting.map (Entry.marked l) = q.waiting :=
      (List.map_congr_left fun a ha => hother a (hq.handle_lt a ha)).trans (List.map_id _)
    rw [PlainQueue.marks, join, List.map_append, hold]
    rfl
  · have hold : ∀ h, (q.departed h).map (Entry.marked l) = q.departed h := by
      intro h
      refine (Option.map_congr fun a ha => ?_).trans (congrFun Option.map_id _)
      refine hother a ?_
      rw [hq.departed_handle h a ha]
      refine Nat.lt_of_not_le fun hle => ?_
      rw [hd h hle] at ha
      cases ha
    funext h
    exact hold h
  · rfl

omit [DecidableEq M] in
theorem look_join {e : Entry I M} {h : Handle} (hh : h ≠ e.handle) :
    (q.join e).look h = q.look h := by
  have hfind : (q.join e).waiting.find? (fun a => decide (a.handle = h)) =
      q.waiting.find? fun a => decide (a.handle = h) := by
    rw [join, List.find?_append, List.find?_singleton, if_neg (by simpa using Ne.symm hh),
      Option.or_none]
  rw [look, look, hfind]
  rfl

variable [DecidableEq I]

omit [DecidableEq M] [DecidableEq I] in
theorem unseen_of_gone {g : Handle} (hq : q.Valid) (hg : g < q.arrivals)
    (hgone : ∀ a ∈ q.waiting, a.handle ≠ g) {op : Op I M}
    (hop : ∀ k v, op = .groupMarkReady k v → k ≠ g) : q.Unseen g op where
  valid := hq
  admitted := hg
  id := fun _ _ a ha hh => absurd hh (hgone a ha)
  member := fun _ _ a ha hh => absurd hh (hgone a ha)
  admission := fun _ _ _ a ha hh => absurd hh (hgone a ha)
  handle := hop
  passed := fun a ha hh => absurd hh (hgone a ha)

theorem conceal_of_gone {g : Handle} (hgone : ∀ a ∈ q.waiting, a.handle ≠ g) (op : Op I M) :
    (q.step op).1.map (op.conceal g (q.waiting.map Entry.handle)) = renumbered g (q.step op).1 := by
  have hnot : g ∉ q.waiting.map Entry.handle := by
    intro hm
    obtain ⟨a, ha, hh⟩ := List.mem_map.mp hm
    exact hgone a ha hh
  have hall : q.waiting.filter (fun a => decide (a.handle ≠ g)) = q.waiting :=
    List.filter_eq_self.mpr fun a ha => decide_eq_true (hgone a ha)
  cases op with
  | groups | clear =>
    simp only [step, Op.conceal, renumbered, Except.map, Answer.omitting, hall, Answer.shifted]
  | len => simp only [step, Op.conceal, renumbered, Except.map, Answer.omitting, hnot, if_false,
      Answer.shifted]
  | _ => rfl

theorem step_gone {g : Handle} (hq : q.Valid) (hg : g < q.arrivals)
    (hgone : ∀ a ∈ q.waiting, a.handle ≠ g) (op : Op I M) :
    g < (q.step op).2.arrivals ∧ ∀ a ∈ (q.step op).2.waiting, a.handle ≠ g := by
  refine ⟨?_, fun a ha hh => ?_⟩
  · rw [(step_conserved hq op).counted]
    exact Nat.lt_add_right _ hg
  · rcases waiting_or_new hq op ha with ⟨b, hb, hba⟩ | hnew
    · have hbh : b.handle = a.handle := congrArg Prod.fst hba
      exact hgone b hb (hbh.trans hh)
    · exact absurd (hh ▸ hnew) (Nat.not_le_of_lt hg)

end PlainQueue

variable [DecidableEq I]

/-- A queue that the group `g` has left, and a queue in which it never was. -/
structure Forgotten (g : Handle) (u w : World I M) : Prop where
  consistent : Consistent u
  consistent' : Consistent w
  plain : w.plain = u.plain.without g
  admitted : g < u.plain.arrivals
  gone : ∀ a ∈ u.plain.waiting, a.handle ≠ g

theorem Forgotten.next {g : Handle} {u w w' : World I M} (h : Forgotten g u w) (op : Op I M)
    (hw' : Consistent w') (hp : w'.plain = (u.plain.step op).2.without g) :
    Forgotten g (step u op).2 w' := by
  have hplain : (step u op).2.plain = (u.plain.step op).2 :=
    congrArg Prod.snd (step_plain h.consistent op)
  obtain ⟨hadmitted, hgone⟩ :=
    PlainQueue.step_gone h.consistent.plain_valid h.admitted h.gone op
  rw [← hplain] at hp hadmitted hgone
  exact ⟨step_consistent h.consistent op, hw', hp, hadmitted, hgone⟩

theorem Forgotten.step {g : Handle} {u w : World I M} (h : Forgotten g u w) {op op' : Op I M}
    (hop : op.unaware g = some op') :
    (Tito.step w op').1 = renumbered g (Tito.step u op).1 ∧
      (Tito.step w op').2.plain = (u.plain.step op).2.without g := by
  obtain ⟨rfl, hhandle⟩ := Op.unaware_eq_some hop
  have hunseen := PlainQueue.unseen_of_gone h.consistent.plain_valid h.admitted h.gone hhandle
  have hstep := PlainQueue.step_without hunseen
  rw [PlainQueue.conceal_of_gone h.gone, ← h.plain, ← step_plain h.consistent'] at hstep
  have hanswer : (Tito.step u op).1 = (u.plain.step op).1 :=
    congrArg Prod.fst (step_plain h.consistent op)
  rw [hanswer]
  exact Prod.mk.inj hstep

theorem forgetting (g : Handle) : Erasure step step (fun _ => Op.unaware g)
    (fun _ _ => renumbered g) (fun _ _ => True) (Forgotten (I := I) (M := M) g) where
  dropped := by
    intro u w op h _ hop
    obtain ⟨v, rfl⟩ := Op.unaware_eq_none hop
    refine h.next _ h.consistent' ?_
    rw [h.plain]
    exact (PlainQueue.groupMarkReady_self_without v h.consistent.plain_valid).symm
  answer := fun h _ hop => (h.step hop).1
  next := fun h _ hop => h.next _ (step_consistent h.consistent' _) (h.step hop).2

omit [DecidableEq M] [DecidableEq I] in
theorem Signal.About.marks {e : Entry I M} {s : Signal I M} (hs : s.About e) (hne : e.members ≠ [])
    {q : PlainQueue I M} (hq : q.Valid) (he : e ∈ q.waiting) :
    (∃ p, s.Marks q p) ∧ ∀ p, s.Marks q p → p.1 = e.handle := by
  cases s with
  | member m =>
    refine ⟨⟨(e.handle, m), e, he, rfl, hs, rfl⟩, ?_⟩
    rintro p ⟨a, ha, hh, hm, hk⟩
    have hk : p.2 = m := hk
    rw [hk] at hm
    rw [← hh, hq.member_unique a ha e he m hm hs]
  | handle h m =>
    obtain ⟨rfl, hm⟩ := hs
    refine ⟨⟨(e.handle, m), e, he, rfl, hm, rfl⟩, ?_⟩
    rintro p ⟨a, ha, hh, hma, hk⟩
    rw [show p = (e.handle, m) from hk]
  | group id =>
    obtain ⟨m, hm⟩ := List.exists_mem_of_ne_nil _ hne
    refine ⟨⟨(e.handle, m), e, he, rfl, hm, hs⟩, ?_⟩
    rintro p ⟨a, ha, hh, hma, hk⟩
    have hid : e.groupId = .hashable id := hs
    rw [← hh, hq.id_unique a ha e he (hid ▸ hk)]

/-- The line after an admission, marks of the new group and its cancellation: the group has left,
one number is used up, and nothing else is different. -/
theorem plain_rolled_back {w w₁ : World I M} (hw : Consistent w) {groupId : Value I}
    {members : Members M} {e : Entry I M}
    (hadmission : step w (.admitGroup groupId members) = (.ok (.group e), w₁))
    {ss : List (Signal I M)} (hss : ∀ s ∈ ss, s.About e) :
    ∃ e' : Entry I M, e'.handle = e.handle ∧ e.handle = w.sequence ∧
      (w.plain.join e').Valid ∧
      (∀ h, w.plain.arrivals ≤ h → w.plain.departed h = none) ∧
      (step (final step w₁ (ss.map Signal.op)) (.cancel groupId)).1 = .ok (.group e') ∧
      (step (final step w₁ (ss.map Signal.op)) (.cancel groupId)).2.plain =
        (w.plain.join e').remove e' := by
  have hw₁ : Consistent w₁ := by
    have hc := step_consistent hw (.admitGroup groupId members)
    rwa [hadmission] at hc
  have hdeparted : ∀ h, w.plain.arrivals ≤ h → w.plain.departed h = none :=
    fun _ => hw.departed_eq_none
  have hplain := step_plain hw (.admitGroup groupId members)
  rw [hadmission] at hplain
  rcases w.plain.admit_cases groupId members with ⟨err, ha⟩ | ⟨id, ms, rfl, -, hacc, ha⟩
  · rw [PlainQueue.step, ha] at hplain
    cases hplain
  rw [PlainQueue.step, ha] at hplain
  obtain ⟨hanswer, hjoin⟩ := Prod.mk.inj hplain
  obtain rfl : e = w.plain.arrival id ms := Answer.group.inj (Except.ok.inj hanswer)
  have hjoin : w₁.plain = w.plain.join (w.plain.arrival id ms) := hjoin
  have hv : w₁.plain.Valid := hw₁.plain_valid
  have he : w.plain.arrival id ms ∈ w₁.plain.waiting := by
    rw [hjoin]
    exact List.mem_append_right _ (List.mem_singleton_self _)
  have hne : (w.plain.arrival id ms).members ≠ [] := by
    rw [PlainQueue.arrival_members]
    exact hacc.ne_nil
  obtain ⟨l, hl, hfin⟩ :=
    Signal.final_eq_marks hv ss fun s hs => ((hss s hs).marks hne hv he).1
  have hself : ∀ p ∈ l, p.1 = (w.plain.arrival id ms).handle := by
    intro p hp
    obtain ⟨s, hs, hm⟩ := (hl p).mp hp
    exact ((hss s hs).marks hne hv he).2 p hm
  obtain ⟨ht, htp⟩ := final_plain hw₁ (ss.map Signal.op)
  have hvt := hv.marks l
  rw [hfin] at htp
  rw [hjoin, hw.plain_valid.marks_join hdeparted rfl hself] at htp hvt
  have he' : (w.plain.arrival id ms).marked l ∈
      (w.plain.join ((w.plain.arrival id ms).marked l)).waiting :=
    List.mem_append_right _ (List.mem_singleton_self _)
  have hcancel := step_plain ht (.cancel (.hashable id))
  rw [htp, hvt.cancel_eq he' (show _ = Value.hashable id from rfl)] at hcancel
  exact ⟨(w.plain.arrival id ms).marked l, rfl, rfl, hvt, hdeparted, congrArg Prod.fst hcancel,
    congrArg Prod.snd hcancel⟩

/-- Cancelling a group that was just admitted, after any marks of its members by any route, takes
the admission back: the same groups wait with the same flags, the same ids and members are free,
and no later calls can tell the queue from the one before, but that one number is used up. The
calls that are made through the handle of the cancelled group have no part in it. -/
theorem cancel_rolls_back {strictOrder : Bool} {w w₁ : World I M}
    (hw : Reachable step (World.init strictOrder) w) {groupId : Value I} {members : Members M}
    {e : Entry I M} (hadmission : step w (.admitGroup groupId members) = (.ok (.group e), w₁))
    {ss : List (Signal I M)} (hss : ∀ s ∈ ss, s.About e) :
    let t := final step w₁ (ss.map Signal.op)
    let u := (step t (.cancel groupId)).2
    (∃ e', (step t (.cancel groupId)).1 = .ok (.group e') ∧ e'.handle = e.handle) ∧
    u.groups = w.groups ∧ (∀ m, u.memberIndex.get? m = w.memberIndex.get? m) ∧
    u.sequence = w.sequence + 1 ∧ (∀ h : Handle, h < w.sequence → u.objects[h]? = w.objects[h]?) ∧
    (∀ ops, answers step w ops =
      (answers step u (ops.map (Op.unshifted e.handle))).map (renumbered e.handle)) ∧
    ∀ ops, answers step w (ops.filterMap (Op.unaware e.handle)) =
      observed step (fun _ => Op.unaware e.handle) (fun _ _ => renumbered e.handle) u ops := by
  intro t u
  have hc := consistent_of_reachable hw
  obtain ⟨e', hh, hnum, hvj, hdeparted, hanswer, hplain⟩ := plain_rolled_back hc hadmission hss
  have hplain : u.plain = (w.plain.join e').remove e' := hplain
  have ht : Consistent t := by
    have h₁ := step_consistent hc (.admitGroup groupId members)
    rw [hadmission] at h₁
    exact (final_plain h₁ _).1
  have hu : Consistent u := step_consistent ht _
  have hwaiting : u.plain.waiting = w.plain.waiting := by
    rw [hplain, hvj.waiting_remove (show _ = w.plain.waiting ++ e' :: [] from rfl), List.append_nil]
  have hgroups := groups_eq_of_waiting_eq hu.toRegistered hc.toRegistered hwaiting
  have hpolicy : u.strictOrder = w.strictOrder := congrArg PlainQueue.strictOrder hplain
  have hmem : e' ∈ (w.plain.join e').waiting := List.mem_append_right _ (List.mem_singleton_self _)
  have hforgotten : Forgotten e.handle u w := by
    refine ⟨hu, hc, ?_, ?_, ?_⟩
    · rw [hplain, PlainQueue.remove_self_without hh, ← hh,
        PlainQueue.join_self_without hc.plain_valid hdeparted (hh.trans hnum)]
    · rw [hplain, hnum]
      exact Nat.lt_succ_self _
    · intro a ha
      rw [hwaiting] at ha
      exact Nat.ne_of_lt (hnum ▸ hc.plain_valid.handle_lt a ha)
  have hrun := fun ops =>
    ((forgetting e.handle).run hforgotten (Along.of_forall (fun _ _ => trivial) u ops)).1
  refine ⟨⟨e', hanswer, hh⟩, hgroups, fun m => ?_, congrArg PlainQueue.arrivals hplain,
    fun h hlt => ?_, fun ops => ?_, fun ops => ?_⟩
  · rw [← plain_groupOf_id hu.toRegistered, ← plain_groupOf_id hc.toRegistered,
      PlainQueue.groupOf, PlainQueue.groupOf, hwaiting]
  · refine object_eq_of_look_eq hu hc hpolicy (by rw [hgroups]) ?_
    have hne : h ≠ e'.handle := Nat.ne_of_lt (hh.trans hnum ▸ hlt)
    rw [← hu.plain_look, ← hc.plain_look, hplain, hvj.look_remove hmem, PlainQueue.look_join hne]
  · have hback : Op.unaware e.handle ∘ Op.unshifted e.handle = @some (Op I M) :=
      funext (Op.unaware_unshifted e.handle)
    have hkept := hrun (ops.map (Op.unshifted e.handle))
    rw [translated_const, List.filterMap_map, hback, List.filterMap_some,
      observed_of_kept step] at hkept
    · exact hkept
    · intro op hop
      obtain ⟨op', -, rfl⟩ := List.mem_map.mp hop
      rw [Op.unaware_unshifted]
      exact Option.some_ne_none op'
  · rw [← translated_const step]
    exact hrun ops

/-- A group of two, complete when it is cancelled, behind a group that waits. -/
theorem cancel_rolls_back_complete :
    let w := (step (World.init false) (.admitGroup (.hashable 7) (.iterable [.hashable 1]))).2
    let admission : Op Nat Nat := .admitGroup (.hashable 8) (.iterable [.hashable 2, .hashable 3])
    let t := final step (step w admission).2 ([.member 2, .handle 1 3, .group 8].map Signal.op)
    let u := (step t (.cancel (.hashable 8))).2
    (∃ e', (step t (.cancel (.hashable 8))).1 = .ok (.group e') ∧ e'.handle = 1) ∧
    u.groups = w.groups ∧ (∀ m, u.memberIndex.get? m = w.memberIndex.get? m) ∧
    u.sequence = w.sequence + 1 ∧ (∀ h : Handle, h < w.sequence → u.objects[h]? = w.objects[h]?) ∧
    (∀ ops, answers step w ops =
      (answers step u (ops.map (Op.unshifted 1))).map (renumbered 1)) ∧
    ∀ ops, answers step w (ops.filterMap (Op.unaware 1)) =
      observed step (fun _ => Op.unaware 1) (fun _ _ => renumbered 1) u ops := by
  intro w admission
  have hw : Reachable step (World.init false) w :=
    ⟨[.admitGroup (.hashable 7) (.iterable [.hashable 1])], rfl⟩
  have hadmission : step w admission =
      (.ok (.group ⟨1, .hashable 8, [(2, false), (3, false)]⟩), (step w admission).2) :=
    Prod.ext (by decide) rfl
  exact cancel_rolls_back hw hadmission (by simp [Signal.About, Entry.members])

end Tito
