import Tito.Indexes
import Tito.Line
import Tito.Strict

namespace Tito

open Lib Lib.Mealy

variable {I M : Type}

namespace PlainQueue

def relax (q : PlainQueue I M) : PlainQueue I M := { q with strictOrder := false }

/-- The head of the line is not ready, and some younger group is. -/
def Blocked (q : PlainQueue I M) : Prop :=
  ∃ e rest, q.waiting = e :: rest ∧ e.ready = false ∧ ∃ e' ∈ rest, e'.ready = true

theorem peek_relax {q : PlainQueue I M} (hs : q.strictOrder = true) {e : Entry I M}
    (h : q.peek = some e) : q.relax.peek = some e := by
  obtain ⟨rest, hr⟩ := peek_strict hs h
  have hready := (peek_mem h).2
  have hp : q.relax.peek = q.waiting.find? Entry.ready := rfl
  rw [hp, hr, List.find?_cons_of_pos hready]

/-- Only a blocked head makes the policies release differently. -/
theorem peek_relax_of_unblocked {q : PlainQueue I M} (hs : q.strictOrder = true)
    (hb : ¬ q.Blocked) : q.relax.peek = q.peek := by
  cases hp : q.peek with
  | some e => exact peek_relax hs hp
  | none =>
    refine List.find?_eq_none.mpr fun e he hr => ?_
    rw [peek, if_pos hs] at hp
    cases hw : q.waiting with
    | nil => rw [show q.relax.waiting = q.waiting from rfl, hw] at he; cases he
    | cons a rest =>
      rw [hw, List.head?_cons, Option.filter_eq_none_iff] at hp
      have ha : a.ready = false := by simpa using hp a rfl
      rw [show q.relax.waiting = q.waiting from rfl, hw] at he
      rcases List.mem_cons.mp he with rfl | he
      · exact Bool.false_ne_true (ha.symm.trans hr)
      · exact hb ⟨a, rest, hw, ha, e, he, hr⟩

theorem releaseUpTo_relax_prefix (n : Nat) {q : PlainQueue I M} (hs : q.strictOrder = true) :
    (q.releaseUpTo n).1 <+: (q.relax.releaseUpTo n).1 := by
  induction n generalizing q with
  | zero => exact List.prefix_refl _
  | succ n ih =>
    rw [releaseUpTo, releaseUpTo]
    cases hp : q.peek with
    | none => exact List.nil_prefix
    | some e =>
      rw [peek_relax hs hp]
      exact List.prefix_cons_inj e |>.mpr (ih (q := q.remove e) hs)

def afterReleases : Nat → PlainQueue I M → PlainQueue I M
  | 0, q => q
  | n + 1, q => afterReleases n (q.peek.elim q q.remove)

theorem releaseUpTo_relax (n : Nat) {q : PlainQueue I M} (hs : q.strictOrder = true)
    (hb : ∀ k, ¬ (q.afterReleases k).Blocked) :
    q.relax.releaseUpTo n = ((q.releaseUpTo n).1, (q.releaseUpTo n).2.relax) := by
  induction n generalizing q with
  | zero => rfl
  | succ n ih =>
    rw [releaseUpTo, releaseUpTo, peek_relax_of_unblocked hs (hb 0)]
    cases hp : q.peek with
    | none => rfl
    | some e =>
      have hrest := ih (q := q.remove e) hs fun k => by
        have hk := hb (k + 1)
        rwa [afterReleases, hp] at hk
      dsimp only
      rw [show q.relax.remove e = (q.remove e).relax from rfl, hrest]

variable [DecidableEq I] [DecidableEq M]

omit [DecidableEq I] in
theorem groupMarkReady_relax (q : PlainQueue I M) (h : Handle) (v : Value M) :
    q.relax.groupMarkReady h v = ((q.groupMarkReady h v).1, (q.groupMarkReady h v).2.relax) := by
  have hl : q.relax.look h = q.look h := rfl
  simp only [groupMarkReady, hl]
  cases q.look h with
  | none => rfl
  | some e =>
    cases v with
    | unhashable t => rfl
    | hashable m =>
      dsimp only
      split <;> rfl

omit [DecidableEq I] in
theorem foldl_mark_relax (h : Handle) (ms : List M) (q : PlainQueue I M) :
    ms.foldl (fun q m => q.mark h m) q.relax = (ms.foldl (fun q m => q.mark h m) q).relax := by
  induction ms generalizing q with
  | nil => rfl
  | cons m ms ih => exact ih (q.mark h m)

theorem step_relax {q : PlainQueue I M} (hs : q.strictOrder = true) (op : Op I M)
    (hr : op = .release → ¬ q.Blocked)
    (hra : op = .releaseAll → ∀ k, ¬ (q.afterReleases k).Blocked) :
    (q.relax.step op).2 = (q.step op).2.relax ∧
      (op ≠ .peek → (q.relax.step op).1 = (q.step op).1) := by
  have same : q.relax.step op = ((q.step op).1, (q.step op).2.relax) →
      (q.relax.step op).2 = (q.step op).2.relax ∧
        (op ≠ .peek → (q.relax.step op).1 = (q.step op).1) :=
    fun h => ⟨by rw [h], fun _ => by rw [h]⟩
  cases op with
  | admitGroup groupId members =>
    apply same
    have hrefusal : q.relax.refusal groupId members = q.refusal groupId members := rfl
    simp only [step, admitGroup, hrefusal]
    cases q.refusal groupId members <;> cases members <;> rfl
  | markReady member =>
    apply same
    have hof : q.relax.groupOf = q.groupOf := rfl
    simp only [step, markReady, hof]
    cases member.toOption.bind q.groupOf with
    | none => rfl
    | some e => exact groupMarkReady_relax q e.handle member
  | markGroupReady groupId =>
    apply same
    have hf : q.relax.find groupId = q.find groupId := rfl
    simp only [step, markGroupReady, hf]
    cases q.find groupId with
    | none => rfl
    | some e => exact Prod.ext rfl (foldl_mark_relax e.handle e.members q)
  | cancel groupId =>
    apply same
    have hf : q.relax.find groupId = q.find groupId := rfl
    simp only [step, cancel, hf]
    cases q.find groupId <;> rfl
  | release =>
    apply same
    simp only [step, peek_relax_of_unblocked hs (hr rfl)]
    cases q.peek <;> rfl
  | releaseAll =>
    apply same
    have hw : q.relax.waiting = q.waiting := rfl
    simp only [step, hw, releaseUpTo_relax _ hs (hra rfl)]
  | groupMarkReady group member => exact same (groupMarkReady_relax q group member)
  | peek => exact ⟨rfl, fun h => absurd rfl h⟩
  | _ => exact same rfl

end PlainQueue

variable [DecidableEq I] [DecidableEq M]

/-- The oldest waiting group is not fully ready, but some younger waiting group is. -/
def World.Blocked (w : World I M) : Prop :=
  ∃ h rest g, w.groups.values = h :: rest ∧ w.objects[h]? = some g ∧ g.isReady = false ∧
    ∃ h' ∈ rest, ∃ g', w.objects[h']? = some g' ∧ g'.isReady = true

/-- No release that the call makes finds the head blocked. -/
def Unblocked (w : World I M) : Op I M → Prop
  | .release => ¬ w.Blocked
  | .releaseAll => ∀ k, ¬ (final step w (List.replicate k .release)).Blocked
  | _ => True

theorem blocked_iff {w : World I M} (hw : Consistent w) : w.plain.Blocked ↔ w.Blocked := by
  constructor
  · rintro ⟨e, rest, hwait, hr, e', he', hr'⟩
    have hvals := hw.map_handle_waiting
    have hmem : ∀ a ∈ e :: rest, ∃ g, w.objects[a.handle]? = some g ∧ g.isReady = a.ready := by
      intro a ha
      obtain ⟨g, hg, hge⟩ := World.look_eq_some.mp (World.mem_waiting.mp (hwait ▸ ha)).2
      exact ⟨g, hg, by rw [← g.ready_entry a.handle, hge]⟩
    obtain ⟨g, hg, hgr⟩ := hmem e List.mem_cons_self
    obtain ⟨g', hg', hgr'⟩ := hmem e' (List.mem_cons_of_mem e he')
    rw [hwait, List.map_cons] at hvals
    exact ⟨e.handle, rest.map Entry.handle, g, hvals.symm, hg, hgr.trans hr, e'.handle,
      List.mem_map_of_mem he', g', hg', hgr'.trans hr'⟩
  · rintro ⟨h, rest, g, hvals, hg, hr, h', hh', g', hg', hr'⟩
    have hl : w.look h = some (g.entry h) := World.look_eq_some.mpr ⟨g, hg, rfl⟩
    refine ⟨g.entry h, rest.filterMap w.look, ?_, by rw [g.ready_entry, hr], g'.entry h', ?_,
      by rw [g'.ready_entry, hr']⟩
    · rw [World.plain]
      dsimp only
      rw [hvals, List.filterMap_cons_some hl]
    · exact List.mem_filterMap.mpr ⟨h', hh', World.look_eq_some.mpr ⟨g', hg', rfl⟩⟩

theorem plain_afterReleases {w : World I M} (hw : Consistent w) (k : Nat) :
    (final step w (List.replicate k .release)).plain = w.plain.afterReleases k := by
  induction k generalizing w with
  | zero => rfl
  | succ k ih =>
    rw [List.replicate_succ, final_cons, ih (step_consistent hw .release),
      PlainQueue.afterReleases]
    have hp : (step w .release).2.plain = (w.plain.step .release).2 := by
      rw [← step_plain hw]
    rw [hp]
    rfl

/-- A strict and a relaxed queue in step: their lines are the same. -/
structure InStep (ws wr : World I M) : Prop where
  strict_consistent : Consistent ws
  relaxed_consistent : Consistent wr
  strict : ws.strictOrder = true
  line : wr.plain = ws.plain.relax

theorem init_inStep : InStep (World.init true : World I M) (World.init false) :=
  ⟨init_consistent true, init_consistent false, rfl, rfl⟩

theorem InStep.step {ws wr : World I M} (h : InStep ws wr) {op : Op I M}
    (hop : Unblocked ws op) :
    InStep (step ws op).2 (step wr op).2 ∧
      (op ≠ .peek → (Tito.step ws op).1 = (Tito.step wr op).1) := by
  have hps := step_plain h.strict_consistent op
  have hpr := step_plain h.relaxed_consistent op
  obtain ⟨hnext, hanswer⟩ := PlainQueue.step_relax (q := ws.plain) h.strict op
    (by
      rintro rfl
      exact mt (blocked_iff h.strict_consistent).mp hop)
    (by
      rintro rfl k
      have hk := hop k
      have hc := (step_refines.final ⟨h.strict_consistent, rfl⟩ (List.replicate k .release)).1
      rw [← plain_afterReleases h.strict_consistent]
      exact mt (blocked_iff hc).mp hk)
  rw [← h.line, ← hpr, ← hps] at hnext hanswer
  refine ⟨⟨step_consistent h.strict_consistent op, step_consistent h.relaxed_consistent op, ?_,
    hnext⟩, fun hne => (hanswer hne).symm⟩
  exact (step_conserved h.strict_consistent op).policy.trans h.strict

theorem step_peek_iff {w : World I M} (hw : Consistent w) {e : Entry I M} :
    (step w .peek).1 = .ok (.group e) ↔ w.plain.peek = some e := by
  have hp : (step w .peek).1 = PlainQueue.shown w.plain.peek :=
    congrArg Prod.fst (step_plain hw .peek)
  rw [hp]
  cases w.plain.peek <;> simp [PlainQueue.shown]

theorem InStep.agree {ws wr : World I M} (h : InStep ws wr) :
    ws.groups = wr.groups ∧ (∀ k, ws.look k = wr.look k) ∧
      (∀ m, ws.memberIndex.get? m = wr.memberIndex.get? m) ∧ ws.sequence = wr.sequence := by
  have hs := h.strict_consistent.toRegistered
  have hr := h.relaxed_consistent.toRegistered
  have hline : ws.plain.waiting = wr.plain.waiting := by
    rw [h.line]
    rfl
  refine ⟨groups_eq_of_waiting_eq hs hr hline, fun k => ?_, fun m => ?_, ?_⟩
  · rw [← hs.plain_look, ← hr.plain_look, h.line]
    rfl
  · rw [← plain_groupOf_id hs, ← plain_groupOf_id hr, h.line]
    rfl
  · exact (congrArg PlainQueue.arrivals h.line).symm

/-- Run in step on a strict and a relaxed queue, the same calls have the same results, `peek`
apart, until a release finds the head blocked; up to then both hold the same waiting groups,
and the strict queue would release a prefix of what the relaxed one would. A `release_all` is
the `release` calls of its loop. -/
theorem policies_agree_until_blocked (ops : List (Op I M))
    (hops : Along step Unblocked (World.init true) ops) :
    (∀ before op after, ops = before ++ op :: after → op ≠ .peek →
      (step (final step (World.init true) before) op).1 =
        (step (final step (World.init false) before) op).1) ∧
    let ws := final step (World.init true) ops
    let wr := final step (World.init false) ops
    ws.groups = wr.groups ∧ (∀ h, ws.look h = wr.look h) ∧
    (∀ m, ws.memberIndex.get? m = wr.memberIndex.get? m) ∧ ws.sequence = wr.sequence ∧
    (∀ e, (step ws .peek).1 = .ok (.group e) → (step wr .peek).1 = .ok (.group e)) ∧
    (∃ es es', (step ws .releaseAll).1 = .ok (.groups es) ∧
      (step wr .releaseAll).1 = .ok (.groups es') ∧ es <+: es') ∧
    ∀ w, w = ws ∨ w = wr → ∃ es, (step w .releaseAll).1 = .ok (.groups es) ∧
      (step w .releaseAll).2 = final step w (List.replicate (es.length + 1) .release) ∧
      answers step w (List.replicate (es.length + 1) .release) =
        es.map (fun e => .ok (.group e)) ++ [.ok .none] := by
  have instep : ∀ {xs : List (Op I M)}, Along step Unblocked (World.init true) xs →
      InStep (final step (World.init true) xs) (final step (World.init false) xs) := fun hxs =>
    lockstep (fun _ _ _ h hop => (h.step hop).1) init_inStep hxs
  refine ⟨?_, ?_⟩
  · rintro before op after rfl hne
    obtain ⟨hb, hop, -⟩ := Along.append.mp hops
    exact ((instep hb).step hop).2 hne
  · intro ws wr
    have h := instep hops
    have hcs := h.strict_consistent
    have hcr := h.relaxed_consistent
    obtain ⟨hgroups, hlook, hindex, hsequence⟩ := h.agree
    refine ⟨hgroups, hlook, hindex, hsequence, ?_, ?_, ?_⟩
    · intro e he
      rw [step_peek_iff hcs] at he
      rw [step_peek_iff hcr, h.line]
      exact PlainQueue.peek_relax h.strict he
    · refine ⟨_, _, congrArg Prod.fst (step_plain hcs .releaseAll),
        congrArg Prod.fst (step_plain hcr .releaseAll), ?_⟩
      rw [h.line]
      exact PlainQueue.releaseUpTo_relax_prefix _ h.strict
    · rintro w (rfl | rfl)
      · exact releaseAll_eq_releases hcs
      · exact releaseAll_eq_releases hcr

/-- The head is withdrawn, the next group is released, and at the end a younger group is ready. -/
theorem policies_agree_until_blocked_cancelled :
    let ops : List (Op Nat Nat) :=
      [.admitGroup (.hashable 7) (.iterable [.hashable 1]),
        .admitGroup (.hashable 8) (.iterable [.hashable 2]), .markReady (.hashable 2),
        .cancel (.hashable 7), .admitGroup (.hashable 9) (.iterable [.hashable 3]), .release,
        .admitGroup (.hashable 7) (.iterable [.hashable 1]), .markReady (.hashable 1)]
    let ws := final step (World.init true) ops
    let wr := final step (World.init false) ops
    (∀ before op after, ops = before ++ op :: after → op ≠ .peek →
      (step (final step (World.init true) before) op).1 =
        (step (final step (World.init false) before) op).1) ∧
    answers step (World.init true) ops =
      [.ok (.group ⟨0, .hashable 7, [(1, false)]⟩), .ok (.group ⟨1, .hashable 8, [(2, false)]⟩),
        .ok (.bool true), .ok (.group ⟨0, .hashable 7, [(1, false)]⟩),
        .ok (.group ⟨2, .hashable 9, [(3, false)]⟩), .ok (.group ⟨1, .hashable 8, [(2, true)]⟩),
        .ok (.group ⟨3, .hashable 7, [(1, false)]⟩), .ok (.bool true)] ∧
    ws.groups = wr.groups ∧ ws.groups.values = [2, 3] ∧ (step ws .release).1 = .ok .none ∧
    ∃ es es', (step ws .releaseAll).1 = .ok (.groups es) ∧
      (step wr .releaseAll).1 = .ok (.groups es') ∧ es <+: es' := by
  intro ops ws wr
  have hops : Along step Unblocked (World.init true) ops := by
    refine ⟨trivial, trivial, trivial, trivial, trivial, ?_, trivial, trivial, trivial⟩
    rintro ⟨h, rest, g, hv, hg, hready, -⟩
    have hvals : [1, 2] = h :: rest := hv
    obtain ⟨rfl, -⟩ := List.cons.inj hvals
    have hhead : (final step (World.init true) (ops.take 5)).objects[1]?.map Group.isReady =
        some true := by decide
    rw [show (final step (World.init true) (ops.take 5)).objects[1]? = some g from hg,
      Option.map_some, hready] at hhead
    cases hhead
  obtain ⟨hanswers, hgroups, -, -, -, -, hprefix, -⟩ := policies_agree_until_blocked ops hops
  exact ⟨hanswers, by decide, hgroups, by decide, by decide, hprefix⟩

end Tito
