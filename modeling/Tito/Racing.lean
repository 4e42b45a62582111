import Tito.Concurrent

namespace Tito

open Lib Lib.Mealy Lib.Threads

variable {T I M : Type}

/-- The groups that a call gives its caller for good. -/
def Request.handed : Request I M → Except (PyError I M) (Returned M) → List Handle
  | .op (.cancel _), .ok (.group h) => [h]
  | .op .release, .ok (.group h) => [h]
  | .op .releaseAll, .ok (.groups hs) => hs
  | .op .clear, .ok (.groups hs) => hs
  | _, _ => []

/-- The group that a call admits. -/
def Request.taken : Request I M → Except (PyError I M) (Returned M) → List Handle
  | .op (.admitGroup _ _), .ok (.group h) => [h]
  | _, _ => []

theorem Request.handed_of_looks {r : Request I M} (hr : r.looks = true)
    (x : Except (PyError I M) (Returned M)) : r.handed x = [] := by
  cases r with
  | op op => cases op <;> first | rfl | cases hr
  | _ => rfl

theorem Request.taken_of_looks {r : Request I M} (hr : r.looks = true)
    (x : Except (PyError I M) (Returned M)) : r.taken x = [] := by
  cases r with
  | op op => cases op <;> first | rfl | cases hr
  | _ => rfl

theorem look_of_lt {w : World I M} {h : Handle} (hh : h < w.objects.length) :
    ∃ e, w.look h = some e ∧ e.handle = h := by
  rw [World.look, List.getElem?_eq_getElem hh]
  exact ⟨_, rfl, rfl⟩

theorem map_handle_look {w : World I M} {hs : List Handle} (h : ∀ k ∈ hs, k < w.objects.length) :
    (hs.filterMap w.look).map Entry.handle = hs := by
  induction hs with
  | nil => rfl
  | cons k hs ih =>
    obtain ⟨e, he, hk⟩ := look_of_lt (h k List.mem_cons_self)
    rw [List.filterMap_cons_some he, List.map_cons, hk,
      ih fun j hj => h j (List.mem_cons_of_mem k hj)]

theorem map_handle_handedOut {w : World I M} {op : Op I M} {x : Except (PyError I M) (Returned M)}
    (h : ∀ k ∈ (Request.op op).handed x, k < w.objects.length) :
    (handedOut op (x.map (Returned.shown w))).map Entry.handle = (Request.op op).handed x := by
  have hone : ∀ k, k < w.objects.length → ∃ e, Returned.shown w (.group k) = .group e ∧
      e.handle = k := by
    intro k hk
    obtain ⟨e, he, hek⟩ := look_of_lt hk
    exact ⟨e, by rw [Returned.shown, he]; rfl, hek⟩
  cases x with
  | error e => cases op <;> rfl
  | ok a =>
    rw [Except.map]
    cases op with
    | cancel groupId =>
      cases a with
      | group k =>
        obtain ⟨e, he, hek⟩ := hone k (h k (List.mem_singleton.mpr rfl))
        rw [he]
        exact congrArg (fun k => [k]) hek
      | _ => rfl
    | release =>
      cases a with
      | group k =>
        obtain ⟨e, he, hek⟩ := hone k (h k (List.mem_singleton.mpr rfl))
        rw [he]
        exact congrArg (fun k => [k]) hek
      | _ => rfl
    | releaseAll =>
      cases a with
      | groups hs => exact map_handle_look h
      | group k => cases hk : w.look k <;> simp [Returned.shown, hk, handedOut, Request.handed]
      | _ => rfl
    | clear =>
      cases a with
      | groups hs => exact map_handle_look h
      | group k => cases hk : w.look k <;> simp [Returned.shown, hk, handedOut, Request.handed]
      | _ => rfl
    | _ => rfl

theorem map_handle_admitted {w : World I M} {op : Op I M} {x : Except (PyError I M) (Returned M)}
    (h : ∀ k ∈ (Request.op op).taken x, k < w.objects.length) :
    (admitted op (x.map (Returned.shown w))).map Entry.handle = (Request.op op).taken x := by
  cases x with
  | error e => cases op <;> rfl
  | ok a =>
    rw [Except.map]
    cases op with
    | admitGroup groupId members =>
      cases a with
      | group k =>
        obtain ⟨e, he, hek⟩ := look_of_lt (h k (List.mem_singleton.mpr rfl))
        rw [Returned.shown, he]
        exact congrArg (fun k => [k]) hek
      | _ => rfl
    | _ => rfl

variable [DecidableEq I] [DecidableEq M]

theorem invoke_of_ok {w v : World I M} {r : Request I M} {a : Returned M}
    (h : r.alone.run w = .ok a v) : invoke w r = (.ok a, v) := by rw [invoke, h]

theorem invoke_of_error {w v : World I M} {r : Request I M} {e : PyError I M}
    (h : r.alone.run w = .error e v) : invoke w r = (.error e, v) := by rw [invoke, h]

theorem lt_of_taken {w : World I M} (op : Op I M) :
    ∀ h ∈ (Request.op op).taken (invoke w (.op op)).1,
      h < (invoke w (.op op)).2.objects.length := by
  intro h hh
  cases op with
  | admitGroup groupId members =>
    have refused : ∀ {e}, (admitGroup groupId members).run w = .error e w →
        h < (invoke w (.op (.admitGroup groupId members))).2.objects.length := by
      intro e he
      rw [invoke_of_error (e := e) (v := w) (by simp [Request.alone, he])] at hh
      cases hh
    cases hb : admitBuild groupId members with
    | error e => exact refused (e := e) (by simp [admitGroup, hb])
    | ok b =>
      obtain ⟨id, g⟩ := b
      by_cases hid : id ∈ w.groups.keys
      · exact refused (by rw [admitGroup, hb]; exact admitCommit_run_of_listed hid)
      · by_cases hq : g.members.filter (fun m => w.memberIndex.contains m) = []
        · have hms : ∀ m ∈ g.members, m ∉ w.memberIndex.keys := by simpa using hq
          have hr : (admitGroup groupId members).run w =
              .ok w.objects.length (w.admitted id g) := by
            rw [admitGroup, hb]
            exact admitCommit_run hid hms
          rw [invoke_of_ok (a := .group w.objects.length) (v := w.admitted id g)
            (by simp [Request.alone, hr])] at hh ⊢
          rw [List.mem_singleton.mp hh]
          simp [World.admitted]
        · exact refused (by rw [admitGroup, hb]; exact admitCommit_run_of_queued hid hq)
  | _ => cases hh

theorem lt_of_handed {w : World I M} (hw : Consistent w) (op : Op I M) :
    ∀ h ∈ (Request.op op).handed (invoke w (.op op)).1, h < w.objects.length := by
  have hwaiting : ∀ h ∈ w.groups.values, h < w.objects.length :=
    fun h hh => hw.counted ▸ hw.lt_sequence hh
  have hseen : ∀ {h}, (w.look h).isSome → h < w.objects.length := by
    intro h hh
    obtain ⟨e, he⟩ := Option.isSome_iff_exists.mp hh
    obtain ⟨g, hg, _⟩ := World.look_eq_some.mp he
    exact (List.getElem?_eq_some_iff.mp hg).1
  intro h hh
  cases op with
  | cancel groupId =>
    cases hid : groupId.toOption.bind w.groups.get? with
    | none =>
      rw [invoke_of_error (e := .tito (.groupNotQueued groupId)) (v := w)
        (by simp [Request.alone, cancel, find_run, hid])] at hh
      cases hh
    | some k =>
      obtain ⟨i, g, hik, hg, _⟩ := found_of_find hw.toRegistered hid
      rw [invoke_of_ok (a := .group k) (v := w.removed i k g)
        (by simp [Request.alone, cancel, find_run, hid, remove_run hw.toRegistered hik hg])] at hh
      rw [List.mem_singleton.mp hh]
      exact hwaiting k (Dict.mem_values_of_get? hik)
  | clear =>
    rw [invoke_of_ok (a := .groups w.groups.values) (v := w.cleared)
      (by simp [Request.alone, clear_run hw])] at hh
    exact hwaiting h hh
  | release =>
    obtain ⟨o, w', hr, _, _, _, hpeek, hnone, _⟩ := release_run hw
    rw [invoke_of_ok (a := .ofOption o) (v := w') (by simp [Request.alone, hr])] at hh
    cases o with
    | none => cases hh
    | some k =>
      rw [List.mem_singleton.mp hh]
      refine hseen (Option.isSome_iff_ne_none.mpr fun hk => ?_)
      rw [Option.bind_some, hk] at hpeek
      cases hnone.mpr hpeek
  | releaseAll =>
    obtain ⟨hs, w', hr, _, _, _, _, _, hans⟩ := releaseAllLoop_run _ hw (Nat.le_refl _) []
    have hrun : releaseAll.run w = .ok hs w' := hr
    rw [invoke_of_ok (a := .groups hs) (v := w') (by simp [Request.alone, hrun])] at hh
    exact hseen (List.filterMap_length_eq_length.mp (length_shown hans) h hh)
  | _ => cases hh

theorem invoke_eq_self (w : World I M) {r : Request I M} (hr : ∀ op, r ≠ .op op) :
    (invoke w r).2 = w := by
  have hR : Effects.Frame fun s t : World I M => t = s := Effects.frame_eq id
  have hderef : ∀ (h : Handle) (f : Group I M → Returned M),
      Effects.Keeps (fun s t : World I M => t = s) (return f (← deref h)) :=
    fun h f => hR.bind (keeps_deref hR h) fun g => hR.pure (f g)
  have hkeeps : Effects.Keeps (fun s t => t = s) r.alone := by
    cases r with
    | op op => exact absurd rfl (hr op)
    | isReady group => exact hderef group fun g => .bool g.isReady
    | readyCount group => exact hderef group fun g => .number g.readyCount
    | readyMembers group => exact hderef group fun g => .members g.readyMembers
    | waitingMembers group => exact hderef group fun g => .members g.waitingMembers
    | groupRepr group =>
      exact hR.bind (hR.bind (keeps_deref hR group) fun g =>
        hR.bind (keeps_deref hR group) fun g' => hR.pure _) fun p => hR.pure _
    | queueRepr =>
      exact hR.bind (hR.bind hR.get fun w => hR.bind hR.get fun w' =>
        hR.bind (keeps_countReady hR _) fun n => hR.pure _) fun p => hR.pure _
  have hw := hkeeps w
  rw [Effects.after] at hw
  rw [invoke]
  cases hrun : r.alone.run w with
  | ok a w' =>
    rw [hrun] at hw
    exact hw
  | error e w' =>
    rw [hrun] at hw
    exact hw

/-- What a call did to the waiting groups, in terms of what it handed out and took in. -/
structure Exchanged (w : World I M) (out into : List Handle) (w' : World I M) : Prop where
  perm : (out ++ w'.groups.values).Perm (w.groups.values ++ into)
  numbered : into = List.range' w.sequence into.length
  counted : w'.sequence = w.sequence + into.length

theorem invoke_exchanged {w : World I M} (hw : Consistent w) (r : Request I M) :
    Consistent (invoke w r).2 ∧
      Exchanged w (r.handed (invoke w r).1) (r.taken (invoke w r).1) (invoke w r).2 := by
  cases r with
  | op op =>
    have hstep := step_eq_invoke w op
    have hw' : Consistent (invoke w (.op op)).2 := by
      have hc := step_consistent hw op
      rwa [hstep] at hc
    have hconserved := step_conserved hw op
    have hgrows : w.objects.length ≤ (invoke w (.op op)).2.objects.length := by
      rw [hw.counted, hw'.counted]
      have hcounted := hconserved.counted
      rw [hstep] at hcounted
      exact (Nat.le_add_right _ _).trans_eq hcounted.symm
    have hout := map_handle_handedOut fun h hh =>
      Nat.lt_of_lt_of_le (lt_of_handed hw op h hh) hgrows
    have hinto := map_handle_admitted (lt_of_taken (w := w) op)
    rw [hstep] at hconserved
    have hlen := congrArg List.length hinto
    rw [List.length_map] at hlen
    refine ⟨hw', ?_, ?_, ?_⟩
    · have hperm := hconserved.handles
      rwa [hout, hw'.map_handle_waiting, hw.map_handle_waiting, ← hconserved.numbered, hinto]
        at hperm
    · rw [← hlen, ← hinto]
      exact hconserved.numbered
    · rw [← hlen]
      exact hconserved.counted
  | _ =>
    rw [invoke_eq_self w (by simp)]
    exact ⟨hw, List.Perm.of_eq (List.append_nil _).symm, rfl, rfl⟩

/-- Over a whole run the groups taken in are numbered one by one, and each of them is either
handed out, once, or still in the queue. -/
theorem serial_exchanged (strictOrder : Bool) (rs : List (Request I M)) :
    collected invoke Request.taken (World.init strictOrder) rs =
        List.range (final invoke (World.init strictOrder : World I M) rs).sequence ∧
      (collected invoke Request.handed (World.init strictOrder) rs ++
        (final invoke (World.init strictOrder : World I M) rs).groups.values).Perm
        (List.range (final invoke (World.init strictOrder : World I M) rs).sequence) := by
  let P (into : List Handle) (w : World I M) : Prop := Consistent w ∧ into = List.range w.sequence
  let Q (out : List Handle) (w : World I M) : Prop :=
    Consistent w ∧ (out ++ w.groups.values).Perm (List.range w.sequence)
  have hrange : ∀ {w w' : World I M} {out into : List Handle}, Exchanged w out into w' →
      List.range w'.sequence = List.range w.sequence ++ into := by
    intro w w' out into h
    rw [h.counted, List.range_eq_range', List.range_eq_range', ← List.range'_append_1, Nat.zero_add,
      ← h.numbered]
  have hP : ∀ into w r, P into w → P (into ++ Request.taken r (invoke w r).1) (invoke w r).2 := by
    rintro into w r ⟨hw, rfl⟩
    obtain ⟨hw', he⟩ := invoke_exchanged hw r
    exact ⟨hw', (hrange he).symm⟩
  have hQ : ∀ out w r, Q out w → Q (out ++ Request.handed r (invoke w r).1) (invoke w r).2 := by
    rintro out w r ⟨hw, hp⟩
    obtain ⟨hw', he⟩ := invoke_exchanged hw r
    refine ⟨hw', ?_⟩
    rw [hrange he, List.append_assoc]
    refine (he.perm.append_left out).trans ?_
    rw [← List.append_assoc]
    exact hp.append_right _
  exact ⟨(collected_invariant hP (l := []) ⟨init_consistent strictOrder, rfl⟩ rs).2,
    (collected_invariant hQ (l := []) ⟨init_consistent strictOrder, .refl _⟩ rs).2⟩

/-- Racing threads never get the same group: what they are handed is handed once, and is in the
queue no more. When all calls have returned, every group that was admitted was handed to a
thread or is still in the queue. -/
theorem threads_hand_out_once [DecidableEq T] (strictOrder : Bool)
    (schedule : List (Choice T (Request I M))) :
    let c := final (Threads.step Request.method) (Config.init (World.init strictOrder)) schedule
    let events :=
      history (Threads.step Request.method) (Config.init (World.init strictOrder)) schedule
    let out := events.flatMap (Event.onReturn Request.handed)
    let into := events.flatMap (Event.onReturn Request.taken)
    out.Nodup ∧ into.Nodup ∧ (c.lock = none → ∀ h ∈ out, h ∉ c.shared.groups.values) ∧
      ((∀ t, c.thread t = none) → (out ++ c.shared.groups.values).Perm into) := by
  intro c events out into
  obtain ⟨moves, hhistory, hmatches⟩ := linearizable disciplined (Matches.init _) schedule
  rw [spec_method] at hhistory hmatches
  obtain ⟨hserial, haccounted⟩ := Object.run invoke Request.looks (World.init strictOrder)
    moves
  generalize final (Object.step invoke Request.looks) (Object.init (World.init strictOrder))
    moves = a at hmatches hserial haccounted
  rw [hhistory] at haccounted
  obtain ⟨htaken, hhanded⟩ := serial_exchanged strictOrder (a.log.map fun e => e.2.1)
  rw [hserial.collected] at htaken hhanded
  rw [← hserial.final] at htaken hhanded
  have hreturned : (returns Request.looks events).Subperm a.log := haccounted.subperm
  have hout : out = (returns Request.looks events).flatMap fun e => Request.handed e.2.1 e.2.2 :=
    (flatMap_returns _ (fun _ x hk => Request.handed_of_looks hk x) _).symm
  have hinto : into = (returns Request.looks events).flatMap fun e => Request.taken e.2.1 e.2.2 :=
    (flatMap_returns _ (fun _ x hk => Request.taken_of_looks hk x) _).symm
  have hnodup := hhanded.nodup_iff.mpr List.nodup_range
  refine ⟨?_, ?_, fun hfree h hh => ?_, fun hrest => ?_⟩
  · rw [hout]
    exact nodup_flatMap_of_subperm hreturned hnodup.of_append_left
  · rw [hinto]
    exact nodup_flatMap_of_subperm hreturned (htaken ▸ List.nodup_range)
  · have hlog : h ∈ a.log.flatMap fun e => Request.handed e.2.1 e.2.2 := by
      rw [hout] at hh
      obtain ⟨e, he, hhe⟩ := List.mem_flatMap.mp hh
      exact List.mem_flatMap.mpr ⟨e, hreturned.subset he, hhe⟩
    rw [show c.shared = a.shared from hmatches.free hfree]
    exact fun hin => (List.nodup_append.mp hnodup).2.2 h hlog h hin rfl
  · obtain ⟨hfree, hidle⟩ := hmatches.at_rest hrest
    have hperm := haccounted.perm hidle
    have hall : ∀ f : Request I M → Except (PyError I M) (Returned M) → List Handle,
        (∀ k r, k.looks = true → f k r = []) →
        ((returns Request.looks events).flatMap fun e => f e.2.1 e.2.2).Perm
          (a.log.flatMap fun e => f e.2.1 e.2.2) := by
      intro f hf
      rw [← flatMap_filter_of_looks Request.looks hf a.log]
      exact hperm.flatMap_right _
    rw [show c.shared = a.shared from hmatches.free hfree, hout, hinto]
    refine ((hall _ fun _ x hk => Request.handed_of_looks hk x).append_right _).trans ?_
    refine hhanded.trans ?_
    rw [← htaken]
    exact (hall _ fun _ x hk => Request.taken_of_looks hk x).symm

end Tito
