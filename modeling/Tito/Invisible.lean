import Tito.Signals
import Tito.Without

namespace Tito

open Lib Lib.Mealy

variable {I M : Type}

/-- The call that a caller makes in place of `op` in a run without the group `g`. -/
def Op.shifted (g : Handle) : Op I M → Op I M
  | .groupMarkReady h member => .groupMarkReady (shift g h) member
  | op => op

/-- An answer up to the numbers of its groups. -/
def Answer.shifted (g : Handle) : Answer I M → Answer I M
  | .group e => .group (e.shifted g)
  | .groups es => .groups (es.map (Entry.shifted g))
  | a => a

/-- An answer about the whole line with `g` left out of it, if `g` is one of `waiting`. -/
def Answer.omitting (g : Handle) (waiting : List Handle) : Answer I M → Answer I M
  | .number n => .number (if g ∈ waiting then n - 1 else n)
  | .groups es => .groups ((es.filter fun e => decide (e.handle ≠ g)).map (Entry.shifted g))
  | a => a

/-- The answer of a call as it is given in a run without `g`. -/
def Op.conceal (g : Handle) (waiting : List Handle) : Op I M → Answer I M → Answer I M
  | .groups | .clear | .len => Answer.omitting g waiting
  | _ => Answer.shifted g

variable [DecidableEq I] [DecidableEq M]

/-- A call about the group `e`: a mark of it or through its handle, its cancellation, or a query
for one of its members, while it is one of the `waiting` groups. -/
def concerns (e : Entry I M) (waiting : List Handle) : Op I M → Bool
  | .groupMarkReady h _ => decide (h = e.handle)
  | .markReady v | .groupOf v | .contains v =>
    decide (e.handle ∈ waiting ∧ ∃ m ∈ e.members, v = .hashable m)
  | .markGroupReady i | .cancel i => decide (e.handle ∈ waiting ∧ i = e.groupId)
  | _ => false

/-- An admission that uses the id of `e` or one of its members. -/
def Op.reuses (e : Entry I M) : Op I M → Bool
  | .admitGroup groupId (.iterable vs) =>
    decide (groupId = e.groupId ∨ ∃ m ∈ e.members, .hashable m ∈ vs)
  | _ => false

namespace PlainQueue

/-- The group `e` has been admitted to this relaxed queue, and is in the line or has left. -/
structure Tracks (e : Entry I M) (q : PlainQueue I M) : Prop where
  valid : q.Valid
  relaxed : q.strictOrder = false
  admitted : e.handle < q.arrivals
  carries : ∀ a ∈ q.waiting, a.handle = e.handle → a.groupId = e.groupId ∧ a.members = e.members

/-- While `e` waits it is not ready, and no admission uses its id or its members. -/
structure Quiet (e : Entry I M) (q : PlainQueue I M) (op : Op I M) : Prop where
  unready : ∀ a ∈ q.waiting, a.handle = e.handle → a.ready = false
  apart : e.handle ∈ q.waiting.map Entry.handle → op.reuses e = false

variable {e : Entry I M} {q : PlainQueue I M}

omit [DecidableEq I] [DecidableEq M] in
theorem Tracks.waiting (hq : q.Tracks e) (hw : e.handle ∈ q.waiting.map Entry.handle) :
    ∃ a ∈ q.waiting, a.handle = e.handle ∧ a.groupId = e.groupId ∧ a.members = e.members := by
  obtain ⟨a, ha, hh⟩ := List.mem_map.mp hw
  exact ⟨a, ha, hh, hq.carries a ha hh⟩

omit [DecidableEq I] in
theorem Valid.mark (hq : q.Valid) (h : Handle) (m : M) : (q.mark h m).Valid := by
  rw [mark_eq_marks]
  exact hq.marks _

omit [DecidableEq I] in
theorem foldl_mark_self_without (ms : List M) (hq : q.Valid) {g : Handle} :
    (ms.foldl (fun q m => q.mark g m) q).without g = q.without g := by
  induction ms generalizing q with
  | nil => rfl
  | cons m ms ih => rw [List.foldl_cons, ih (hq.mark g m), mark_self_without m hq]

omit [DecidableEq I] in
theorem foldl_mark_without (ms : List M) (hq : q.Valid) {g h : Handle} (hh : h ≠ g) :
    (ms.foldl (fun q m => q.mark h m) q).without g =
      ms.foldl (fun q m => q.mark (shift g h) m) (q.without g) := by
  induction ms generalizing q with
  | nil => rfl
  | cons m ms ih => rw [List.foldl_cons, ih (hq.mark h m), mark_without hh m hq, List.foldl_cons]

omit [DecidableEq I] in
theorem groupMarkReady_self_without (v : Value M) (hq : q.Valid) {g : Handle} :
    (q.groupMarkReady g v).2.without g = q.without g := by
  rw [groupMarkReady]
  split
  · rfl
  · split
    · rfl
    · split
      · exact mark_self_without _ hq
      · rfl

theorem step_without_of_concerns (hq : q.Tracks e) {op : Op I M}
    (hop : concerns e (q.waiting.map Entry.handle) op = true) :
    (q.step op).2.without e.handle = q.without e.handle := by
  cases op with
  | groupMarkReady h v =>
    obtain rfl : h = e.handle := of_decide_eq_true hop
    exact groupMarkReady_self_without v hq.valid
  | markReady v =>
    obtain ⟨hw, m, hm, rfl⟩ := of_decide_eq_true hop
    obtain ⟨a, ha, hh, -, hms⟩ := hq.waiting hw
    have hof : q.groupOf m = some a := hq.valid.groupOf_eq ha (hms ▸ hm)
    simp only [step, markReady, Value.toOption, Option.bind_some, hof, hh]
    exact groupMarkReady_self_without _ hq.valid
  | markGroupReady i =>
    obtain ⟨hw, rfl⟩ := of_decide_eq_true hop
    obtain ⟨a, ha, hh, hid, -⟩ := hq.waiting hw
    simp only [step, markGroupReady]
    cases hi : e.groupId with
    | unhashable t => rfl
    | hashable id =>
      rw [hq.valid.find_eq ha (hid.trans hi), ← hh]
      exact foldl_mark_self_without _ hq.valid
  | cancel i =>
    obtain ⟨hw, rfl⟩ := of_decide_eq_true hop
    obtain ⟨a, ha, hh, hid, -⟩ := hq.waiting hw
    simp only [step, cancel]
    cases hi : e.groupId with
    | unhashable t => rfl
    | hashable id =>
      rw [hq.valid.find_eq ha (hid.trans hi)]
      exact remove_self_without hh
  | groupOf v => rfl
  | contains v => rfl
  | _ => cases hop

omit [DecidableEq I] in
theorem groupMarkReady_without {g h : Handle} (hh : h ≠ g) (v : Value M) (hq : q.Valid) :
    (q.without g).groupMarkReady (shift g h) v =
      ((q.groupMarkReady h v).1.map (Answer.shifted g), (q.groupMarkReady h v).2.without g) := by
  simp only [groupMarkReady, look_without hh]
  cases q.look h with
  | none => rfl
  | some a =>
    cases v with
    | unhashable t => rfl
    | hashable m =>
      have hms : (a.shifted g).members = a.members := rfl
      simp only [Option.map_some, hms]
      split
      · rw [mark_without hh m hq]
        rfl
      · rfl

omit [DecidableEq I] [DecidableEq M] in
theorem length_without (hq : q.Valid) (g : Handle) :
    (q.without g).waiting.length =
      if g ∈ q.waiting.map Entry.handle then q.waiting.length - 1 else q.waiting.length := by
  have he : (q.waiting.filter fun a => decide (a.handle ≠ g)).map Entry.handle =
      (q.waiting.map Entry.handle).erase g := by
    rw [hq.handles_nodup.erase_eq_filter, List.filter_map]
    refine congrArg _ (List.filter_congr fun a _ => ?_)
    simp [bne, beq_eq_decide]
  have hl := congrArg List.length he
  rw [List.length_map, List.length_erase, List.length_map] at hl
  rw [without]
  exact (List.length_map _).trans hl

theorem refusal_without {g : Handle} {groupId : Value I} {members : Members M}
    (hid : ∀ vs, members = .iterable vs → ∀ a ∈ q.waiting, a.handle = g → a.groupId ≠ groupId)
    (hms : ∀ vs, members = .iterable vs → ∀ a ∈ q.waiting, a.handle = g →
      ∀ m ∈ a.members, .hashable m ∉ vs) :
    (q.without g).refusal groupId members = q.refusal groupId members := by
  cases members with
  | text t => rfl
  | notIterable => rfl
  | iterable vs =>
    have hof : ∀ m ∈ vs.filterMap Value.toOption,
        (q.without g).groupOf m = (q.groupOf m).map (Entry.shifted g) := by
      intro m hm
      obtain ⟨v, hv, hvm⟩ := List.mem_filterMap.mp hm
      have hvm : v = .hashable m := by
        cases v with
        | unhashable t => cases hvm
        | hashable m' => rw [Option.some.inj hvm]
      exact groupOf_without fun a ha hh hma => hms vs rfl a ha hh m hma (hvm ▸ hv)
    have hqueued :
        (vs.filterMap Value.toOption).filter (fun m => ((q.without g).groupOf m).isSome) =
          (vs.filterMap Value.toOption).filter fun m => (q.groupOf m).isSome :=
      List.filter_congr fun m hm => by rw [hof m hm, Option.isSome_map]
    have hmap : ((vs.filterMap Value.toOption).filter fun m => (q.groupOf m).isSome).filterMap
          (fun m => ((q.without g).groupOf m).bind fun e =>
            e.groupId.toOption.map fun id => (m, id)) =
        ((vs.filterMap Value.toOption).filter fun m => (q.groupOf m).isSome).filterMap
          fun m => (q.groupOf m).bind fun e => e.groupId.toOption.map fun id => (m, id) := by
      refine List.filterMap_congr fun m hm => ?_
      rw [hof m (List.mem_of_mem_filter hm), Option.bind_map]
      rfl
    have hids : ∀ id, groupId = .hashable id →
        ((∃ a ∈ (q.without g).waiting, a.groupId = .hashable id) ↔
          ∃ a ∈ q.waiting, a.groupId = .hashable id) := by
      rintro id rfl
      simp only [without, List.mem_map, List.mem_filter, exists_exists_and_eq_and]
      constructor
      · rintro ⟨a, ⟨ha, -⟩, hk⟩
        exact ⟨a, ha, hk⟩
      · rintro ⟨a, ha, hk⟩
        exact ⟨a, ⟨ha, decide_eq_true fun hh => hid vs rfl a ha hh hk⟩, hk⟩
    cases groupId with
    | unhashable t => rfl
    | hashable id => simp only [refusal, hqueued, hmap, hids id rfl]

theorem admit_without {g : Handle} (hg : g < q.arrivals) {groupId : Value I} {members : Members M}
    (hr : (q.without g).refusal groupId members = q.refusal groupId members) :
    (q.without g).admitGroup groupId members =
      ((q.admitGroup groupId members).1.map (Answer.shifted g),
        (q.admitGroup groupId members).2.without g) := by
  have hshift : shift g q.arrivals = (q.without g).arrivals := if_neg (Nat.not_lt_of_lt hg)
  simp only [admitGroup, hr]
  cases q.refusal groupId members with
  | some err => rfl
  | none =>
    cases members with
    | text t => rfl
    | notIterable => rfl
    | iterable vs =>
      have hj := join_without (q := q) (g := g)
        (e := ⟨q.arrivals, groupId, (vs.filterMap Value.toOption).map fun m => (m, false)⟩) rfl hg
      simp only [join, Entry.shifted, hshift] at hj
      simp only [hj]
      simp only [Except.map, Answer.shifted, Entry.shifted, hshift]

/-- The call `op` does not come upon the group `g`: if `g` is in the line at all, nothing in the
arguments leads to it, and no release would hand it out or wait for it. -/
structure Unseen (g : Handle) (q : PlainQueue I M) (op : Op I M) : Prop where
  valid : q.Valid
  admitted : g < q.arrivals
  id : ∀ i, op = .markGroupReady i ∨ op = .cancel i →
    ∀ a ∈ q.waiting, a.handle = g → a.groupId ≠ i
  member : ∀ m, op = .markReady (.hashable m) ∨ op = .groupOf (.hashable m) ∨
    op = .contains (.hashable m) → ∀ a ∈ q.waiting, a.handle = g → m ∉ a.members
  admission : ∀ groupId vs, op = .admitGroup groupId (.iterable vs) →
    ∀ a ∈ q.waiting, a.handle = g → a.groupId ≠ groupId ∧ ∀ m ∈ a.members, .hashable m ∉ vs
  handle : ∀ h v, op = .groupMarkReady h v → h ≠ g
  passed : ∀ a ∈ q.waiting, a.handle = g → q.strictOrder = false ∧ a.ready = false

omit [DecidableEq I] in
theorem memberGroup_without {g : Handle} {v : Value M}
    (hg : ∀ m, v = .hashable m → ∀ a ∈ q.waiting, a.handle = g → m ∉ a.members) :
    v.toOption.bind (q.without g).groupOf = (v.toOption.bind q.groupOf).map (Entry.shifted g) ∧
      ∀ a, v.toOption.bind q.groupOf = some a → a.handle ≠ g := by
  cases v with
  | unhashable t => exact ⟨rfl, fun a ha => by cases ha⟩
  | hashable m =>
    refine ⟨groupOf_without (hg m rfl), fun a ha hh => ?_⟩
    have hof : q.groupOf m = some a := ha
    have hm : m ∈ a.members := by simpa using List.find?_some hof
    exact hg m rfl a (List.mem_of_find?_eq_some hof) hh hm

omit [DecidableEq M] in
theorem found_ne {g : Handle} {id : Value I}
    (hg : ∀ a ∈ q.waiting, a.handle = g → a.groupId ≠ id) {a : Entry I M}
    (h : q.find id = some a) : a.handle ≠ g :=
  fun hh => hg a (find_mem h).1 hh (find_mem h).2

/-- A call that does not come upon `g` is answered without `g` as with it, and has the same
effect. -/
theorem step_without {g : Handle} {op : Op I M} (hop : q.Unseen g op) :
    (q.without g).step (op.shifted g) =
      ((q.step op).1.map (op.conceal g (q.waiting.map Entry.handle)), (q.step op).2.without g) := by
  have hq := hop.valid
  cases op with
  | admitGroup groupId members =>
    refine admit_without hop.admitted (refusal_without ?_ ?_)
    · rintro vs rfl a ha hh
      exact (hop.admission groupId vs rfl a ha hh).1
    · rintro vs rfl a ha hh
      exact (hop.admission groupId vs rfl a ha hh).2
  | markReady v =>
    obtain ⟨hof, hne⟩ := memberGroup_without (v := v) fun m hm => hop.member m (Or.inl (hm ▸ rfl))
    simp only [Op.shifted, step, markReady, hof]
    cases ha : v.toOption.bind q.groupOf with
    | none => rfl
    | some a => exact groupMarkReady_without (hne a ha) v hq
  | markGroupReady i =>
    have hid := hop.id i (Or.inl rfl)
    simp only [Op.shifted, step, markGroupReady, find_without hid]
    cases ha : q.find i with
    | none => rfl
    | some a =>
      simp only [Option.map_some]
      rw [foldl_mark_without a.members hq (found_ne hid ha)]
      rfl
  | groupOf v =>
    obtain ⟨hof, -⟩ :=
      memberGroup_without (v := v) fun m hm => hop.member m (Or.inr (Or.inl (hm ▸ rfl)))
    simp only [Op.shifted, step, hof]
    cases v.toOption.bind q.groupOf <;> rfl
  | cancel i =>
    have hid := hop.id i (Or.inr rfl)
    simp only [Op.shifted, step, cancel, find_without hid]
    cases ha : q.find i with
    | none => rfl
    | some a =>
      simp only [Option.map_some]
      rw [remove_without (found_ne hid ha)]
      rfl
  | clear =>
    simp only [Op.shifted, step]
    rw [clear_without]
    rfl
  | peek =>
    simp only [Op.shifted, step, peek_without hop.passed]
    cases q.peek <;> rfl
  | release =>
    simp only [Op.shifted, step, peek_without hop.passed]
    cases hp : q.peek with
    | none => rfl
    | some a =>
      simp only [Option.map_some, Option.elim_some]
      rw [remove_without (peek_ne hop.passed hp)]
      rfl
  | releaseAll =>
    have hle : (q.without g).waiting.length ≤ q.waiting.length :=
      (List.length_map _).trans_le (List.length_filter_le _ _)
    simp only [Op.shifted, step]
    rw [releaseUpTo_eq_of_le (Nat.le_refl _) hle, releaseUpTo_without _ hop.passed]
    rfl
  | groups => rfl
  | len =>
    simp only [Op.shifted, step]
    rw [length_without hq]
    rfl
  | contains v =>
    obtain ⟨hof, -⟩ :=
      memberGroup_without (v := v) fun m hm => hop.member m (Or.inr (Or.inr (hm ▸ rfl)))
    simp only [Op.shifted, step, hof, Option.isSome_map]
    rfl
  | groupMarkReady h v => exact groupMarkReady_without (hop.handle h v rfl) v hq

theorem Tracks.unseen (hq : q.Tracks e) {op : Op I M} (hquiet : q.Quiet e op)
    (hop : concerns e (q.waiting.map Entry.handle) op = false) : q.Unseen e.handle op where
  valid := hq.valid
  admitted := hq.admitted
  id := by
    rintro i hi a ha hh hid
    have hwait : e.handle ∈ q.waiting.map Entry.handle := hh ▸ List.mem_map_of_mem ha
    have hsame : i = e.groupId := hid.symm.trans (hq.carries a ha hh).1
    rcases hi with rfl | rfl <;> exact of_decide_eq_false hop ⟨hwait, hsame⟩
  member := by
    rintro m hi a ha hh hm
    have hwait : e.handle ∈ q.waiting.map Entry.handle := hh ▸ List.mem_map_of_mem ha
    rw [(hq.carries a ha hh).2] at hm
    rcases hi with rfl | rfl | rfl <;> exact of_decide_eq_false hop ⟨hwait, m, hm, rfl⟩
  admission := by
    rintro groupId vs rfl a ha hh
    have hapart := of_decide_eq_false (hquiet.apart (hh ▸ List.mem_map_of_mem ha))
    obtain ⟨hid, hms⟩ := hq.carries a ha hh
    refine ⟨fun hk => hapart (Or.inl (hk.symm.trans hid)), fun m hm hv => ?_⟩
    exact hapart (Or.inr ⟨m, hms ▸ hm, hv⟩)
  handle := by
    rintro h v rfl
    exact of_decide_eq_false hop
  passed := fun a ha hh => ⟨hq.relaxed, hquiet.unready a ha hh⟩

theorem waiting_or_new (hq : q.Valid) (op : Op I M) {a : Entry I M}
    (ha : a ∈ (q.step op).2.waiting) :
    (∃ b ∈ q.waiting, b.ticket = a.ticket) ∨ q.arrivals ≤ a.handle := by
  have hc := step_conserved hq op
  have hmem : a.ticket ∈ (handedOut op (q.step op).1 ++ (q.step op).2.waiting).map Entry.ticket :=
    List.mem_map_of_mem (List.mem_append_right _ ha)
  obtain ⟨b, hb, hba⟩ := List.mem_map.mp (hc.perm.mem_iff.mp hmem)
  rcases List.mem_append.mp hb with hb | hb
  · exact Or.inl ⟨b, hb, hba⟩
  · have hnew := List.mem_map_of_mem (f := Entry.handle) hb
    rw [hc.numbered, show b.handle = a.handle from congrArg Prod.fst hba] at hnew
    exact Or.inr (List.mem_range'_1.mp hnew).1

theorem Tracks.step (hq : q.Tracks e) (op : Op I M) (hv : (q.step op).2.Valid) :
    (q.step op).2.Tracks e := by
  have hc := step_conserved hq.valid op
  refine ⟨hv, hc.policy.trans hq.relaxed, ?_, fun a ha hh => ?_⟩
  · rw [hc.counted]
    exact Nat.lt_add_right _ hq.admitted
  · rcases waiting_or_new hq.valid op ha with ⟨b, hb, hba⟩ | hnew
    · have hbh : b.handle = a.handle := congrArg Prod.fst hba
      have hbid : b.groupId = a.groupId := congrArg (fun t => t.2.1) hba
      have hbms : b.members = a.members := congrArg (fun t => t.2.2) hba
      rw [← hbid, ← hbms]
      exact hq.carries b hb (hbh.trans hh)
    · exact absurd (hh ▸ hnew) (Nat.not_le_of_lt hq.admitted)

theorem tracks_of_admission (hq : q.Valid) (hd : ∀ h, q.arrivals ≤ h → q.departed h = none)
    (hs : q.strictOrder = false) {groupId : Value I} {members : Members M}
    (hv : (q.admitGroup groupId members).2.Valid)
    (h : (q.admitGroup groupId members).1 = .ok (.group e)) :
    (q.admitGroup groupId members).2.Tracks e ∧
      (q.admitGroup groupId members).2.without e.handle = q := by
  rcases q.admit_cases groupId members with ⟨err, ha⟩ | ⟨id, ms, rfl, rfl, -, ha⟩
  · rw [ha] at h
    cases h
  · rw [ha] at h hv ⊢
    cases h
    have hself : q.arrival id ms ∈ (q.join (q.arrival id ms)).waiting :=
      List.mem_append_right _ (List.mem_singleton_self _)
    refine ⟨⟨hv, hs, Nat.lt_succ_self _, fun a ha hh => ?_⟩, join_self_without hq hd rfl⟩
    rw [hv.handle_unique ha hself hh]
    exact ⟨rfl, rfl⟩

end PlainQueue

/-- While `e` waits it is not complete, and no admission that is attempted uses its id or one of
its members. -/
def Quiet (e : Entry I M) (w : World I M) (op : Op I M) : Prop :=
  e.handle ∈ w.groups.values →
    w.objects[e.handle]?.map Group.isReady ≠ some true ∧ op.reuses e = false

instance (e : Entry I M) (w : World I M) (op : Op I M) : Decidable (Quiet e w op) :=
  inferInstanceAs (Decidable (_ → _))

/-- The calls of a run that are not about `e`, as they are made in a run without it. -/
def kept (e : Entry I M) (w : World I M) (op : Op I M) : Option (Op I M) :=
  if concerns e w.groups.values op then none else some (op.shifted e.handle)

def concealed (e : Entry I M) (w : World I M) (op : Op I M) (o : Outcome I M) : Outcome I M :=
  o.map (op.conceal e.handle w.groups.values)

theorem Quiet.plain {e : Entry I M} {w : World I M} {op : Op I M} (h : Quiet e w op)
    (hvals : w.plain.waiting.map Entry.handle = w.groups.values) : w.plain.Quiet e op where
  unready := by
    intro a ha hh
    obtain ⟨hw, hl⟩ := World.mem_waiting.mp ha
    obtain ⟨g, hg, hga⟩ := World.look_eq_some.mp hl
    rw [hh] at hw hg
    have hready := (h hw).1
    rw [hg, Option.map_some, ne_eq, Option.some_inj, Bool.not_eq_true] at hready
    rw [← hga, g.ready_entry, hready]
  apart := by
    intro hw
    rw [hvals] at hw
    exact (h hw).2

/-- A queue in which `e` was admitted, and a queue in which it never was. -/
structure Hides (e : Entry I M) (w w' : World I M) : Prop where
  consistent : Consistent w
  consistent' : Consistent w'
  tracks : w.plain.Tracks e
  plain : w'.plain = w.plain.without e.handle

theorem Hides.next {e : Entry I M} {w w' u' : World I M} (h : Hides e w w') (op : Op I M)
    (hu' : Consistent u') (hp : u'.plain = (w.plain.step op).2.without e.handle) :
    Hides e (step w op).2 u' := by
  have hw := step_consistent h.consistent op
  have hplain : (step w op).2.plain = (w.plain.step op).2 := by rw [← step_plain h.consistent]
  have hv := hw.plain_valid
  rw [hplain] at hv
  refine ⟨hw, hu', ?_, ?_⟩
  · rw [hplain]
    exact h.tracks.step op hv
  · rw [hplain, hp]

/-- A call that is not about `e` is made in the run without `e` with the same answer. -/
theorem Hides.step_kept {e : Entry I M} {w w' : World I M} (h : Hides e w w') {op op' : Op I M}
    (hquiet : Quiet e w op) (hk : kept e w op = some op') :
    (step w' op').1 = concealed e w op (step w op).1 ∧
      (step w' op').2.plain = (w.plain.step op).2.without e.handle := by
  have hvals := h.consistent.map_handle_waiting
  rw [kept] at hk
  split at hk
  · cases hk
  rename_i hop
  cases hk
  rw [← hvals] at hop
  have hstep := PlainQueue.step_without
    (h.tracks.unseen (hquiet.plain hvals) (Bool.eq_false_iff.mpr hop))
  rw [← h.plain, ← step_plain h.consistent', hvals, ← step_plain h.consistent] at hstep
  rw [← step_plain h.consistent]
  exact Prod.mk.inj hstep

theorem erasure (e : Entry I M) :
    Erasure step step (kept e) (concealed e) (Quiet e) (Hides (I := I) (M := M) e) where
  dropped := by
    intro w w' op h _ hk
    have hvals := h.consistent.map_handle_waiting
    rw [kept] at hk
    split at hk
    · rename_i hop
      rw [← hvals] at hop
      refine h.next op h.consistent' ?_
      rw [h.plain, PlainQueue.step_without_of_concerns h.tracks hop]
    · cases hk
  answer := fun h hquiet hk => (h.step_kept hquiet hk).1
  next := fun h hquiet hk =>
    h.next _ (step_consistent h.consistent' _) (h.step_kept hquiet hk).2

/-- A group of a relaxed queue that is never complete while it waits, and whose id and members no
other admission uses meanwhile, is invisible to the others: in the run without its admission and
without the calls about it, every other call is answered as before. -/
theorem incomplete_group_invisible (before after : List (Op I M)) {groupId : Value I}
    {members : Members M} {e : Entry I M} {w w' : World I M}
    (hbefore : final step (World.init false) before = w)
    (hadmission : step w (.admitGroup groupId members) = (.ok (.group e), w'))
    (hafter : Along step (Quiet e) w' after) :
    answers step (World.init false) (before ++ translated step (kept e) w' after) =
      answers step (World.init false) before ++ observed step (kept e) (concealed e) w' after := by
  have hw : Consistent w := consistent_of_reachable ⟨before, hbefore⟩
  have hw' : Consistent w' := by
    have hc := step_consistent hw (.admitGroup groupId members)
    rwa [hadmission] at hc
  have hplain := step_plain hw (.admitGroup groupId members)
  rw [hadmission] at hplain
  obtain ⟨hanswer, hnext⟩ := Prod.mk.inj hplain
  have hstrict : w.plain.strictOrder = false := hbefore ▸ final_strictOrder false before
  have hdeparted : ∀ h, w.plain.arrivals ≤ h → w.plain.departed h = none :=
    fun _ => hw.departed_eq_none
  obtain ⟨htracks, hwithout⟩ := PlainQueue.tracks_of_admission hw.plain_valid hdeparted hstrict
    (by rw [← show _ = (w.plain.admitGroup groupId members).2 from hnext]; exact hw'.plain_valid)
    hanswer.symm
  have hhides : Hides e w' w := by
    refine ⟨hw', hw, ?_, ?_⟩
    · rw [hnext]
      exact htracks
    · rw [hnext]
      exact hwithout.symm
  rw [answers_append, hbefore, ((erasure e).run hhides hafter).1]

/-- A group of two that got one mark, cancelled while a later group is complete. -/
theorem incomplete_group_invisible_cancelled :
    let after : List (Op Nat Nat) := [.admitGroup (.hashable 8) (.iterable [.hashable 3]),
      .markReady (.hashable 1), .groupMarkReady 1 (.hashable 3), .cancel (.hashable 7), .release]
    let w := (step (World.init false)
      (.admitGroup (.hashable 7) (.iterable [.hashable 1, .hashable 2]))).2
    let e : Entry Nat Nat := ⟨0, .hashable 7, [(1, false), (2, false)]⟩
    answers step (World.init false) ([] ++ translated step (kept e) w after) =
      answers step (World.init false) [] ++ observed step (kept e) (concealed e) w after := by
  intro after w e
  exact incomplete_group_invisible [] after rfl (Prod.ext (by decide) rfl) (by decide)

end Tito
