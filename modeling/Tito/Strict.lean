import Tito.Indexes
import Tito.Line

namespace Tito

open Lib Lib.Mealy

variable {I M : Type}

/-- The groups that a call releases. -/
def released : Op I M → Outcome I M → List (Entry I M)
  | .release, .ok (.group e) => [e]
  | .releaseAll, .ok (.groups es) => es
  | _, _ => []

def Op.Releases (op : Op I M) : Prop := op = .release ∨ op = .releaseAll

theorem released_of_releases {op : Op I M} (h : op.Releases) (o : Outcome I M) :
    released op o = handedOut op o := by
  rcases h with rfl | rfl
  · rcases o with e | (_ | _ | _ | _ | _) <;> rfl
  · rcases o with e | (_ | _ | _ | _ | _) <;> rfl

theorem released_of_not_releases {op : Op I M} (h : ¬ op.Releases) (o : Outcome I M) :
    released op o = [] := by
  cases op with
  | release => exact absurd (Or.inl rfl) h
  | releaseAll => exact absurd (Or.inr rfl) h
  | _ => rfl

namespace PlainQueue

variable {q : PlainQueue I M}

theorem peek_strict (hs : q.strictOrder = true) {e : Entry I M} (h : q.peek = some e) :
    ∃ rest, q.waiting = e :: rest := by
  rw [peek, if_pos hs] at h
  obtain ⟨hh, -⟩ := Option.filter_eq_some_iff.mp h
  exact ⟨q.waiting.tail, (List.cons_head?_tail hh).symm⟩

theorem Valid.remove_head (hq : q.Valid) {e : Entry I M} {rest : List (Entry I M)}
    (h : q.waiting = e :: rest) : (q.remove e).waiting = rest :=
  hq.waiting_remove (show q.waiting = [] ++ e :: rest from h)

theorem Valid.releaseUpTo_prefix (hq : q.Valid) (hs : q.strictOrder = true) (n : Nat) :
    (q.releaseUpTo n).1 ++ (q.releaseUpTo n).2.waiting = q.waiting := by
  induction n generalizing q with
  | zero => rfl
  | succ n ih =>
    rw [releaseUpTo]
    cases hp : q.peek with
    | none => rfl
    | some e =>
      obtain ⟨rest, hr⟩ := peek_strict hs hp
      have hrem := ih (hq.remove e) hs
      rw [hq.remove_head hr] at hrem
      rw [hr]
      exact congrArg (e :: ·) hrem

variable [DecidableEq I] [DecidableEq M]

theorem Valid.released_prefix (hq : q.Valid) (hs : q.strictOrder = true) {op : Op I M}
    (h : op.Releases) : handedOut op (q.step op).1 ++ (q.step op).2.waiting = q.waiting := by
  rcases h with rfl | rfl
  · simp only [step]
    cases hp : q.peek with
    | none => rfl
    | some e =>
      obtain ⟨rest, hr⟩ := peek_strict hs hp
      rw [hr]
      exact congrArg (e :: ·) (hq.remove_head hr)
  · exact hq.releaseUpTo_prefix hs _

end PlainQueue

variable [DecidableEq I] [DecidableEq M]

theorem released_prefix {w : World I M} (hw : Consistent w) (hs : w.strictOrder = true)
    {op : Op I M} (h : op.Releases) :
    handedOut op (step w op).1 ++ (step w op).2.plain.waiting = w.plain.waiting := by
  have hp := hw.plain_valid.released_prefix hs h
  rwa [← step_plain hw] at hp

/-- The state of a strict run, against the groups it has released so far. -/
structure InOrder (es : List (Entry I M)) (w : World I M) : Prop where
  consistent : Consistent w
  strict : w.strictOrder = true
  increasing : es.Pairwise fun e e' => e.handle < e'.handle
  before_waiting : ∀ a ∈ es, ∀ e ∈ w.plain.waiting, a.handle < e.handle
  before_arrivals : ∀ a ∈ es, a.handle < w.sequence

theorem InOrder.step {es : List (Entry I M)} {w : World I M} (h : InOrder es w) (op : Op I M) :
    InOrder (es ++ released op (step w op).1) (step w op).2 := by
  have hw := h.consistent
  have hc := step_conserved hw op
  have hcount : (Tito.step w op).2.sequence = w.sequence + (admitted op (Tito.step w op).1).length :=
    hc.counted
  have hstrict : (Tito.step w op).2.strictOrder = true := hc.policy.trans h.strict
  by_cases hop : op.Releases
  · have hpre := released_prefix hw h.strict hop
    have hord := hw.ordered_waiting
    rw [← hpre, List.pairwise_append] at hord
    rw [released_of_releases hop]
    refine ⟨step_consistent hw op, hstrict, ?_, ?_, ?_⟩
    · refine List.pairwise_append.mpr ⟨h.increasing, hord.1, fun a ha e he => ?_⟩
      exact h.before_waiting a ha e (hpre ▸ List.mem_append_left _ he)
    · intro a ha e he
      rcases List.mem_append.mp ha with ha | ha
      · exact h.before_waiting a ha e (hpre ▸ List.mem_append_right _ he)
      · exact hord.2.2 a ha e he
    · intro a ha
      rw [hcount]
      rcases List.mem_append.mp ha with ha | ha
      · exact Nat.lt_add_right _ (h.before_arrivals a ha)
      · exact Nat.lt_add_right _ (hw.plain_valid.handle_lt a (hpre ▸ List.mem_append_left _ ha))
  · rw [released_of_not_releases hop, List.append_nil]
    refine ⟨step_consistent hw op, hstrict, h.increasing, ?_, ?_⟩
    · intro a ha e he
      have hmem := hc.perm.mem_iff.mp (List.mem_map_of_mem (List.mem_append_right _ he))
      obtain ⟨e', he', ht⟩ := List.mem_map.mp hmem
      have hh : e'.handle = e.handle := congrArg Prod.fst ht
      rw [← hh]
      rcases List.mem_append.mp he' with he' | he'
      · exact h.before_waiting a ha e' he'
      · have hnum := List.mem_map_of_mem (f := Entry.handle) he'
        rw [hc.numbered, List.mem_range'_1] at hnum
        exact Nat.lt_of_lt_of_le (h.before_arrivals a ha) hnum.1
    · intro a ha
      rw [hcount]
      exact Nat.lt_add_right _ (h.before_arrivals a ha)

omit [DecidableEq I] in
theorem Group.not_isReady_iff (g : Group I M) :
    g.isReady = false ↔ ∃ m ∈ g.members, g.ready.get? m = some false := by
  constructor
  · intro h
    by_contra hn
    refine absurd (g.isReady_iff_complete.mpr fun m hm => ?_) (Bool.eq_false_iff.mp h)
    obtain ⟨b, hb⟩ := Dict.mem_keys_iff.mp (g.keys_ready.symm ▸ hm)
    cases b with
    | true => exact hb
    | false => exact absurd ⟨m, hm, hb⟩ hn
  · rintro ⟨m, _, hm⟩
    exact isReady_of_get?_false hm

theorem release_none_iff {w : World I M} (hw : Consistent w) (hs : w.strictOrder = true) :
    (step w .release).1 = .ok .none ↔ w.groups.values = [] ∨
      ∃ h g, w.groups.values.head? = some h ∧ w.objects[h]? = some g ∧
        ∃ m ∈ g.members, g.ready.get? m = some false := by
  have hp := congrArg Prod.fst (step_plain hw .release)
  have hpeek := head_strict hw.toRegistered hs
  have hnone : (step w .release).1 = .ok .none ↔ w.plain.peek = none := by
    rw [show (step w .release).1 = PlainQueue.shown w.plain.peek from hp]
    cases w.plain.peek <;> simp [PlainQueue.shown]
  rw [hnone, hpeek]
  cases hv : w.groups.values with
  | nil => simp
  | cons h t =>
    obtain ⟨_, g, _, hg, _⟩ := hw.waiting (h := h) (hv ▸ List.mem_cons_self)
    have hl : w.look h = some (g.entry h) := World.look_eq_some.mpr ⟨g, hg, rfl⟩
    rw [List.head?_cons, Option.bind_some, hl]
    simp only [Option.filter_eq_none_iff, Option.some.injEq, forall_eq', g.ready_entry,
      Bool.not_eq_true, g.not_isReady_iff, reduceCtorEq, false_or]
    constructor
    · exact fun hm => ⟨h, g, rfl, hg, hm⟩
    · rintro ⟨h', g', rfl, hg', hm⟩
      rwa [Option.some.inj (hg.symm.trans hg')]

theorem InOrder.older_gone {es : List (Entry I M)} {w : World I M} (h : InOrder es w) {op : Op I M}
    (hop : op.Releases) {es₁ es₂ : List (Entry I M)} {e : Entry I M}
    (hout : handedOut op (Tito.step w op).1 = es₁ ++ e :: es₂) {k : Handle} (hlt : k < e.handle)
    (hwait : k ∈ w.groups.values) : k ∈ es₁.map Entry.handle := by
  have hw := h.consistent
  have hpre := released_prefix hw h.strict hop
  have hsorted := hw.ordered_waiting
  rw [hout, List.append_assoc, List.cons_append] at hpre
  rw [← hw.map_handle_waiting, ← hpre, List.map_append] at hwait
  rw [← hpre, List.pairwise_append, List.pairwise_cons] at hsorted
  rcases List.mem_append.mp hwait with hm | hm
  · exact hm
  · obtain ⟨c, hc, hch⟩ := List.mem_map.mp hm
    rcases List.mem_cons.mp hc with rfl | hc
    · exact absurd hch (Nat.ne_of_gt hlt)
    · exact absurd (hch ▸ hsorted.2.1.1 c hc) (Nat.lt_asymm hlt)

/-- In a run of a strict queue a released group leaves behind no group admitted before it: each
has left earlier, or in the same `release_all` before it. So the numbers of released groups
increase throughout the run. -/
theorem strict_releases_in_order (ops : List (Op I M)) :
    let w := final step (World.init true) ops
    (∀ op, op = .release ∨ op = .releaseAll → ∀ es₁ e es₂,
      handedOut op (step w op).1 = es₁ ++ e :: es₂ →
      ∀ before a after, collected step admitted (World.init true) ops = before ++ a :: after →
        a.handle = e.handle →
        ∀ b ∈ before, b.handle ∉ w.groups.values ∨ b.handle ∈ es₁.map Entry.handle) ∧
    (collected step released (World.init true) ops).Pairwise
      (fun e e' => e.handle < e'.handle) ∧
    (∀ (h : Handle) (g : Group I M), w.objects[h]? = some g → g.sequence = h) ∧
    ((step w .release).1 = .ok .none ↔ w.groups.values = [] ∨
      ∃ h g, w.groups.values.head? = some h ∧ w.objects[h]? = some g ∧
        ∃ m ∈ g.members, g.ready.get? m = some false) := by
  intro w
  have hstart : InOrder [] (World.init true : World I M) :=
    ⟨init_consistent true, rfl, List.Pairwise.nil, by simp, by simp⟩
  have hord : InOrder ([] ++ collected step released (World.init true) ops) w :=
    collected_invariant (fun _ _ op h => h.step op) hstart ops
  have hw := hord.consistent
  refine ⟨?_, hord.increasing, hw.numbered, release_none_iff hw hord.strict⟩
  intro op hop es₁ e es₂ hout before a after hadm ha b hb
  have hlt : b.handle < e.handle := by
    have hnum := handles_admitted true ops
    have hsorted := List.pairwise_lt_range (n := w.sequence)
    rw [← hnum, hadm, List.map_append, List.map_cons] at hsorted
    rw [← ha]
    exact (List.pairwise_append.mp hsorted).2.2 _ (List.mem_map_of_mem hb) _ List.mem_cons_self
  by_cases hwait : b.handle ∈ w.groups.values
  · exact Or.inr (hord.older_gone hop hout hlt hwait)
  · exact Or.inl hwait

end Tito
