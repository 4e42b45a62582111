import Tito.Indexes
import Tito.Line

namespace Tito

open Lib Lib.Mealy Lib.Search

variable {I M : Type}

/-- A readiness signal, by any of its three routes. -/
inductive Signal (I M : Type) where
  | member (m : M)
  | handle (h : Handle) (m : M)
  | group (id : I)

def Signal.op : Signal I M → Op I M
  | .member m => .markReady (.hashable m)
  | .handle h m => .groupMarkReady h (.hashable m)
  | .group id => .markGroupReady (.hashable id)

variable [DecidableEq M]

/-- The entry with every flag raised that `marks` names. -/
def Entry.marked (marks : List (Handle × M)) (e : Entry I M) : Entry I M :=
  { e with flags := e.flags.map fun f => if (e.handle, f.1) ∈ marks then (f.1, true) else f }

theorem Entry.members_marked (marks : List (Handle × M)) (e : Entry I M) :
    (e.marked marks).members = e.members := by
  rw [Entry.members, Entry.marked, List.map_map]
  refine List.map_congr_left fun f _ => ?_
  by_cases h : (e.handle, f.1) ∈ marks <;> simp [h]

theorem Entry.marked_marked (marks marks' : List (Handle × M)) (e : Entry I M) :
    (e.marked marks).marked marks' = e.marked (marks ++ marks') := by
  simp only [Entry.marked, List.map_map]
  congr 1
  refine List.map_congr_left fun f _ => ?_
  by_cases h : (e.handle, f.1) ∈ marks <;> by_cases h' : (e.handle, f.1) ∈ marks' <;> simp [h, h']

theorem Entry.markAt_eq_marked (h : Handle) (m : M) (e : Entry I M) :
    e.markAt h m = e.marked [(h, m)] := by
  rw [Entry.markAt]
  split
  · rename_i he
    simp only [Entry.mark, Entry.marked, he]
    congr 1
    refine List.map_congr_left fun f _ => ?_
    by_cases hf : f.1 = m <;> simp [hf]
  · rename_i he
    have hf : e.flags.map (fun f => if (e.handle, f.1) ∈ [(h, m)] then (f.1, true) else f) =
        e.flags := by
      refine (List.map_congr_left fun f _ => ?_).trans (List.map_id _)
      simp [he]
    rw [Entry.marked, hf]

namespace PlainQueue

/-- The line with every flag raised that `marks` names. -/
def marks (q : PlainQueue I M) (marks : List (Handle × M)) : PlainQueue I M :=
  { q with
    waiting := q.waiting.map (Entry.marked marks)
    departed := fun h => (q.departed h).map (Entry.marked marks) }

/-- Only which flags are raised matters, not when or how often. -/
theorem marks_congr (q : PlainQueue I M) {l l' : List (Handle × M)} (h : ∀ p, p ∈ l ↔ p ∈ l') :
    q.marks l = q.marks l' := by
  have he : Entry.marked (I := I) l = Entry.marked l' := by
    funext e
    simp only [Entry.marked, h]
  simp only [marks, he]

theorem marks_marks (q : PlainQueue I M) (l l' : List (Handle × M)) :
    (q.marks l).marks l' = q.marks (l ++ l') := by
  have he : Entry.marked (I := I) l' ∘ Entry.marked l = Entry.marked (l ++ l') :=
    funext (Entry.marked_marked l l')
  simp only [marks, List.map_map, Option.map_map, he]

theorem marks_nil (q : PlainQueue I M) : q.marks [] = q := by
  have he : Entry.marked (I := I) ([] : List (Handle × M)) = id := by
    funext e
    simp [Entry.marked]
  simp only [marks, he, List.map_id, Option.map_id_fun, id]

theorem mark_eq_marks (q : PlainQueue I M) (h : Handle) (m : M) :
    q.mark h m = q.marks [(h, m)] := by
  simp only [mark, marks, funext (Entry.markAt_eq_marked h m)]

theorem foldl_mark_eq_marks (h : Handle) (ms : List M) (q : PlainQueue I M) :
    ms.foldl (fun q m => q.mark h m) q = q.marks (ms.map fun m => (h, m)) := by
  induction ms generalizing q with
  | nil => exact (marks_nil q).symm
  | cons m ms ih =>
    rw [List.foldl_cons, ih, mark_eq_marks, marks_marks]
    rfl

theorem Valid.marks {q : PlainQueue I M} (hq : q.Valid) (l : List (Handle × M)) :
    (q.marks l).Valid where
  ordered := List.pairwise_map.mpr hq.ordered
  handle_lt := by
    intro a ha
    obtain ⟨e, he, rfl⟩ := List.mem_map.mp ha
    exact hq.handle_lt e he
  id_unique := by
    intro a ha a' ha' hid
    obtain ⟨e, he, rfl⟩ := List.mem_map.mp ha
    obtain ⟨e', he', rfl⟩ := List.mem_map.mp ha'
    rw [hq.id_unique e he e' he' hid]
  member_unique := by
    intro a ha a' ha' m hm hm'
    obtain ⟨e, he, rfl⟩ := List.mem_map.mp ha
    obtain ⟨e', he', rfl⟩ := List.mem_map.mp ha'
    rw [Entry.members_marked] at hm hm'
    rw [hq.member_unique e he e' he' m hm hm']
  departed_handle := by
    intro h a ha
    obtain ⟨e, he, rfl⟩ := Option.map_eq_some_iff.mp ha
    exact hq.departed_handle h e he

theorem look_marks (q : PlainQueue I M) (l : List (Handle × M)) (h : Handle) :
    (q.marks l).look h = (q.look h).map (Entry.marked l) := by
  have hhandle : ((fun e : Entry I M => decide (e.handle = h)) ∘ Entry.marked l) =
      fun e : Entry I M => decide (e.handle = h) := rfl
  simp only [look, marks, List.find?_map, hhandle]
  cases q.waiting.find? fun e => decide (e.handle = h) <;> rfl

end PlainQueue

/-- The members of waiting groups that a signal marks, with their groups. -/
def Signal.Marks (s : Signal I M) (q : PlainQueue I M) (p : Handle × M) : Prop :=
  ∃ e ∈ q.waiting, e.handle = p.1 ∧ p.2 ∈ e.members ∧
    match s with
    | .member m => p.2 = m
    | .handle h m => p = (h, m)
    | .group id => e.groupId = .hashable id

theorem Signal.marks_of_marks (s : Signal I M) (q : PlainQueue I M) (l : List (Handle × M))
    (p : Handle × M) : s.Marks (q.marks l) p ↔ s.Marks q p := by
  simp only [Signal.Marks, PlainQueue.marks, List.mem_map, exists_exists_and_eq_and,
    Entry.members_marked]
  rfl

variable [DecidableEq I]

theorem Signal.step_eq_marks {q : PlainQueue I M} (hq : q.Valid) {s : Signal I M}
    (hs : ∃ p, s.Marks q p) :
    ∃ l, (∀ p, p ∈ l ↔ s.Marks q p) ∧ (q.step s.op).2 = q.marks l := by
  obtain ⟨⟨h, m⟩, e, he, rfl, hm, hk⟩ := hs
  have hlook := hq.look_eq he
  have hmark : (q.groupMarkReady e.handle (.hashable m)).2 = q.marks [(e.handle, m)] := by
    rw [PlainQueue.groupMarkReady, hlook]
    simp only [show m ∈ e.members from hm, if_true, PlainQueue.mark_eq_marks]
  cases s with
  | member m' =>
    obtain rfl : m = m' := hk
    refine ⟨[(e.handle, m)], fun p => ?_, ?_⟩
    · rw [List.mem_singleton]
      constructor
      · rintro rfl
        exact ⟨e, he, rfl, hm, rfl⟩
      · rintro ⟨e', he', hp, hm', hk'⟩
        rw [hk'] at hm'
        rw [hq.member_unique e he e' he' m hm hm']
        exact Prod.ext hp.symm hk'
    · simp only [Signal.op, PlainQueue.step, PlainQueue.markReady, Value.toOption, Option.bind_some,
        hq.groupOf_eq he hm]
      exact hmark
  | handle h' m' =>
    obtain ⟨rfl, rfl⟩ : e.handle = h' ∧ m = m' := Prod.mk.inj hk
    refine ⟨[(e.handle, m)], fun p => ?_, hmark⟩
    rw [List.mem_singleton]
    constructor
    · rintro rfl
      exact ⟨e, he, rfl, hm, rfl⟩
    · rintro ⟨_, _, _, _, hk'⟩
      exact hk'
  | group id =>
    refine ⟨e.members.map fun m => (e.handle, m), fun p => ?_, ?_⟩
    · rw [List.mem_map]
      constructor
      · rintro ⟨m', hm', rfl⟩
        exact ⟨e, he, rfl, hm', hk⟩
      · rintro ⟨e', he', hp, hm', hk'⟩
        rw [← hq.id_unique e he e' he' (hk.trans hk'.symm)] at hp hm'
        exact ⟨p.2, hm', Prod.ext hp rfl⟩
    · simp only [Signal.op, PlainQueue.step, PlainQueue.markGroupReady, hq.find_eq he hk]
      exact PlainQueue.foldl_mark_eq_marks e.handle e.members q

/-- A list of signals to waiting groups raises the flags that its signals name. -/
theorem Signal.final_eq_marks {q : PlainQueue I M} (hq : q.Valid) (ss : List (Signal I M))
    (hs : ∀ s ∈ ss, ∃ p, s.Marks q p) :
    ∃ l, (∀ p, p ∈ l ↔ ∃ s ∈ ss, s.Marks q p) ∧
      final PlainQueue.step q (ss.map Signal.op) = q.marks l := by
  induction ss generalizing q with
  | nil => exact ⟨[], by simp, q.marks_nil.symm⟩
  | cons s ss ih =>
    obtain ⟨l₁, hl₁, hstep⟩ := s.step_eq_marks hq (hs s List.mem_cons_self)
    obtain ⟨l₂, hl₂, hrest⟩ := ih (hq.marks l₁) fun s' hs' => by
      obtain ⟨p, hp⟩ := hs s' (List.mem_cons_of_mem s hs')
      exact ⟨p, (s'.marks_of_marks q l₁ p).mpr hp⟩
    refine ⟨l₁ ++ l₂, fun p => ?_, ?_⟩
    · simp only [List.mem_append, hl₁, hl₂, Signal.marks_of_marks, List.exists_mem_cons_iff]
    · rw [List.map_cons, final_cons, hstep, hrest, PlainQueue.marks_marks]

/-- The group at `h` has its member `m` marked ready. -/
def World.IsMarked (w : World I M) (h : Handle) (m : M) : Prop :=
  w.objects[h]?.bind (fun g => g.ready.get? m) = some true

/-- The signal marks `m`, a member of the waiting group at `h`. -/
def Signal.Reaches (s : Signal I M) (w : World I M) (h : Handle) (m : M) : Prop :=
  ∃ g, w.Waits h g ∧ m ∈ g.members ∧
    match s with
    | .member m' => m = m'
    | .handle h' m' => h = h' ∧ m = m'
    | .group id => g.groupId = .hashable id

omit [DecidableEq M] [DecidableEq I] in
theorem Signal.reaches_iff (s : Signal I M) (w : World I M) (h : Handle) (m : M) :
    s.Reaches w h m ↔ s.Marks w.plain (h, m) := by
  constructor
  · rintro ⟨g, ⟨hg, hh⟩, hm, hk⟩
    have hl : w.look h = some (g.entry h) := World.look_eq_some.mpr ⟨g, hg, rfl⟩
    refine ⟨g.entry h, World.mem_waiting.mpr ⟨hh, hl⟩, rfl, by rwa [g.members_entry], ?_⟩
    cases s with
    | member m' => exact hk
    | handle h' m' => exact Prod.ext hk.1 hk.2
    | group id => exact hk
  · rintro ⟨e, he, hh, hm, hk⟩
    obtain ⟨hwait, hl⟩ := World.mem_waiting.mp he
    rw [show e.handle = h from hh] at hwait hl
    obtain ⟨g, hg, rfl⟩ := World.look_eq_some.mp hl
    rw [g.members_entry] at hm
    refine ⟨g, ⟨hg, hwait⟩, hm, ?_⟩
    cases s with
    | member m' => exact hk
    | handle h' m' => exact Prod.mk.inj hk
    | group id => exact hk

omit [DecidableEq M] [DecidableEq I] in
theorem Signal.marks_of_reaches {w : World I M} (hv : w.plain.Valid) {ss ss' : List (Signal I M)}
    (hsame : ∀ m, (∃ s ∈ ss, ∃ h, s.Reaches w h m) → ∃ s ∈ ss', ∃ h, s.Reaches w h m)
    {p : Handle × M} (hp : ∃ s ∈ ss, s.Marks w.plain p) : ∃ s ∈ ss', s.Marks w.plain p := by
  obtain ⟨h, m⟩ := p
  obtain ⟨s, hs, hk⟩ := hp
  obtain ⟨s', hs', h', hk'⟩ := hsame m ⟨s, hs, h, (s.reaches_iff w h m).mpr hk⟩
  obtain ⟨e, he, hh, hm, _⟩ := hk
  have hk' := (s'.reaches_iff w h' m).mp hk'
  obtain ⟨e', he', hh', hm', _⟩ := id hk'
  have hsame : h' = h := by
    rw [← show e.handle = h from hh, ← show e'.handle = h' from hh',
      hv.member_unique e he e' he' m hm hm']
  exact ⟨s', hs', hsame ▸ hk'⟩

omit [DecidableEq M] [DecidableEq I] in
theorem Signal.exists_marks {w : World I M} {ss : List (Signal I M)}
    (hss : ∀ s ∈ ss, ∃ h m, s.Reaches w h m) : ∀ s ∈ ss, ∃ p, s.Marks w.plain p := by
  intro s hs
  obtain ⟨h, m, hr⟩ := hss s hs
  exact ⟨(h, m), (s.reaches_iff w h m).mp hr⟩

theorem final_plain {w : World I M} (hw : Consistent w) (ops : List (Op I M)) :
    Consistent (final step w ops) ∧
      (final step w ops).plain = final PlainQueue.step w.plain ops :=
  step_refines.final ⟨hw, rfl⟩ ops

omit [DecidableEq I] in
theorem World.isMarked_iff (w : World I M) (h : Handle) (m : M) :
    w.IsMarked h m ↔ ∃ e, w.look h = some e ∧ (m, true) ∈ e.flags := by
  rw [World.IsMarked, World.look]
  cases w.objects[h]? with
  | none => simp
  | some g =>
    simp only [Option.bind_some, Option.map_some, Option.some.injEq, exists_eq_left']
    exact Dict.get?_eq_some_iff

theorem Signal.isMarked_final {w : World I M} (hw : Consistent w) {ss : List (Signal I M)}
    (hss : ∀ s ∈ ss, ∃ h m, s.Reaches w h m) (h : Handle) (m : M) :
    (final step w (ss.map Signal.op)).IsMarked h m ↔
      w.IsMarked h m ∨ ∃ s ∈ ss, s.Reaches w h m := by
  obtain ⟨l, hl, hfin⟩ := Signal.final_eq_marks hw.plain_valid ss (Signal.exists_marks hss)
  obtain ⟨hu, hup⟩ := final_plain hw (ss.map Signal.op)
  have hlook : (final step w (ss.map Signal.op)).look h = (w.look h).map (Entry.marked l) := by
    rw [← hu.plain_look, hup, hfin, PlainQueue.look_marks, hw.plain_look]
  have hreaches : (∃ s ∈ ss, s.Reaches w h m) ↔ (h, m) ∈ l := by
    rw [hl]
    simp only [Signal.reaches_iff]
  rw [World.isMarked_iff, World.isMarked_iff, hlook]
  constructor
  · rintro ⟨e', he', hflag⟩
    obtain ⟨e, he, rfl⟩ := Option.map_eq_some_iff.mp he'
    obtain ⟨f, hf, hmark⟩ := List.mem_map.mp hflag
    split at hmark
    · rename_i hin
      rw [World.look_handle he, (Prod.mk.inj hmark).1] at hin
      exact Or.inr (hreaches.mpr hin)
    · exact Or.inl ⟨e, he, hmark ▸ hf⟩
  · rintro (⟨e, he, hflag⟩ | hr)
    · refine ⟨e.marked l, by rw [he]; rfl, List.mem_map.mpr ⟨(m, true), hflag, ?_⟩⟩
      split
      · rfl
      · rfl
    · obtain ⟨s, -, g, ⟨hg, -⟩, hm, -⟩ := id hr
      have he : w.look h = some (g.entry h) := World.look_eq_some.mpr ⟨g, hg, rfl⟩
      obtain ⟨b, hb⟩ := Dict.mem_keys_iff.mp (g.keys_ready.symm ▸ hm)
      refine ⟨(g.entry h).marked l, by rw [he]; rfl, ?_⟩
      refine List.mem_map.mpr ⟨(m, b), Dict.get?_eq_some_iff.mp hb, ?_⟩
      exact if_pos (hreaches.mp hr)

/-- Signals to waiting groups that mark the same members, in whatever order, number and mix of
routes, raise the flags of exactly those, and lead to queues that no later call can tell apart. -/
theorem signals_commute {strictOrder : Bool} {w : World I M}
    (hw : Reachable step (World.init strictOrder) w) {ss ss' : List (Signal I M)}
    (hss : ∀ s ∈ ss, ∃ h m, s.Reaches w h m) (hss' : ∀ s ∈ ss', ∃ h m, s.Reaches w h m)
    (hsame : ∀ m, (∃ s ∈ ss, ∃ h, s.Reaches w h m) ↔ ∃ s ∈ ss', ∃ h, s.Reaches w h m) :
    let u := final step w (ss.map Signal.op)
    let u' := final step w (ss'.map Signal.op)
    (∀ h : Handle, (u.objects[h]?.map fun g => (g.ready, g.readyCount)) =
      u'.objects[h]?.map fun g => (g.ready, g.readyCount)) ∧
    (∀ (h : Handle) (m : M), u.IsMarked h m ↔ w.IsMarked h m ∨ ∃ s ∈ ss, s.Reaches w h m) ∧
    (step u .peek).1 = (step u' .peek).1 ∧ Indistinguishable step u u' := by
  intro u u'
  have hc := consistent_of_reachable hw
  have hv := hc.plain_valid
  obtain ⟨l, hl, hfin⟩ := Signal.final_eq_marks hv ss (Signal.exists_marks hss)
  obtain ⟨l', hl', hfin'⟩ := Signal.final_eq_marks hv ss' (Signal.exists_marks hss')
  obtain ⟨hu, hup⟩ : Consistent u ∧ u.plain = _ := final_plain hc _
  obtain ⟨hu', hup'⟩ : Consistent u' ∧ u'.plain = _ := final_plain hc _
  have hp : u.plain = u'.plain := by
    rw [hup, hup', hfin, hfin']
    refine w.plain.marks_congr fun p => ?_
    rw [hl, hl']
    exact ⟨Signal.marks_of_reaches hv fun m => (hsame m).mp,
      Signal.marks_of_reaches hv fun m => (hsame m).mpr⟩
  have hind : Indistinguishable step u u' :=
    step_refines.indistinguishable ⟨hu, rfl⟩ ⟨hu', hp.symm⟩
  exact ⟨fun h => by rw [objects_eq_of_plain_eq hu hu' hp], Signal.isMarked_final hc hss,
    (List.cons.inj (hind [.peek])).1, hind⟩

/-- Marking a member twice, by the queue and by its group's handle, is marking it once. -/
theorem signals_commute_repeated :
    let w := final step (World.init false)
      [.admitGroup (.hashable 7) (.iterable [.hashable 1, .hashable 2])]
    let u := final step w ([.member 1, .handle 0 1].map Signal.op)
    let u' := final step w ([.member 1].map Signal.op)
    (∀ h : Handle, (u.objects[h]?.map fun g => (g.ready, g.readyCount)) =
      u'.objects[h]?.map fun g => (g.ready, g.readyCount)) ∧
    (∀ h m, u.IsMarked h m ↔
      w.IsMarked h m ∨ ∃ s ∈ [Signal.member 1, .handle 0 1], s.Reaches w h m) ∧
    (step u .peek).1 = (step u' .peek).1 ∧ Indistinguishable (step (I := Nat) (M := Nat)) u u' := by
  intro w
  have hw : Reachable step (World.init false) w := ⟨_, rfl⟩
  have hg : ∃ g, w.Waits 0 g ∧ 1 ∈ g.members := ⟨_, ⟨rfl, by decide⟩, by decide⟩
  obtain ⟨g, hwait, hm⟩ := hg
  have hmember : (Signal.member 1).Reaches w 0 1 := ⟨g, hwait, hm, rfl⟩
  have hhandle : (Signal.handle 0 1).Reaches w 0 1 := ⟨g, hwait, hm, rfl, rfl⟩
  refine signals_commute hw ?_ ?_ fun m => ⟨?_, ?_⟩
  · simp only [List.mem_cons, List.not_mem_nil, or_false, forall_eq_or_imp, forall_eq]
    exact ⟨⟨0, 1, hmember⟩, 0, 1, hhandle⟩
  · simp only [List.mem_singleton, forall_eq]
    exact ⟨0, 1, hmember⟩
  · rintro ⟨s, hs, h, g', hwait', hm', hk⟩
    refine ⟨.member 1, List.mem_singleton.mpr rfl, h, g', hwait', hm', ?_⟩
    rcases List.mem_cons.mp hs with rfl | hs
    · exact hk
    · rw [List.mem_singleton.mp hs] at hk
      exact hk.2
  · rintro ⟨s, hs, hr⟩
    exact ⟨s, List.mem_cons.mpr (Or.inl (List.mem_singleton.mp hs)), hr⟩

end Tito
