import Tito.Alike
import Tito.Peeking

namespace Tito

open Lib Lib.Effects Lib.Relational Lib.Mealy

variable {I M : Type} {lost : Handle → Option (Group I M × Group I M)} {names : Handle → Option I}

/-- The same outcome up to the assigned ids. -/
def Told (names : Handle → Option I) : Outcome I M → Outcome I M → Prop
  | .ok a, .ok a' => a' = a.named names
  | .error e, .error e' => SameError names e e'
  | _, _ => False

theorem Alike.look {u w : World I M} (huw : Alike lost names u w) {h : Handle}
    (hh : lost h = none) : w.look h = (u.look h).map (Entry.named names) := by
  obtain ⟨os, rfl, hs⟩ := huw
  rw [World.look, World.look, hs.object h hh, Option.map_map, Option.map_map]
  exact Option.map_congr fun g _ => g.entry_named names h

theorem Together.showBool {p : Py I M Bool} (hp : Together lost names (fun b b' => b' = b) p p) :
    Together lost names (fun a a' : Answer I M => a' = a.named names) (do return .bool (← p))
      (do return .bool (← p)) := by
  refine Lockstep.bind hp ?_
  rintro b _ rfl
  exact Lockstep.pure rfl

theorem Together.showGroup {o o' : Option Handle} (ho : Followed lost o o') :
    Together (I := I) (M := M) lost names (fun a a' => a' = a.named names) (showGroup o)
      (showGroup o') := by
  obtain ⟨rfl, hfree⟩ := ho
  cases o' with
  | none => exact Lockstep.pure rfl
  | some h =>
    refine Lockstep.get_bind fun u w huw => ⟨?_, huw⟩
    rw [huw.look (hfree h rfl)]
    cases u.look h <;> rfl

theorem Together.showGroups {hs : List Handle} (hfree : ∀ h ∈ hs, lost h = none) :
    Together (I := I) (M := M) lost names (fun a a' => a' = a.named names) (showGroups hs)
      (showGroups hs) := by
  refine Lockstep.get_bind fun u w huw => ⟨?_, huw⟩
  refine congrArg Answer.groups ?_
  rw [List.map_filterMap]
  exact List.filterMap_congr fun h hh => huw.look (hfree h hh)

variable [DecidableEq M]

theorem Together.setMember (id : I) (m : M) :
    Together (I := I) lost names Done (setMember id m) (setMember id m) :=
  Together.narrow (fun _ _ => rfl) (fun _ => rfl) (fun _ => List.Subset.refl _)
    fun _ => List.Subset.refl _

variable [DecidableEq I]

omit [DecidableEq M] in
theorem Together.setGroup (id : I) {h : Handle} (hh : lost h = none) :
    Together (I := I) (M := M) lost names Done (setGroup id h) (setGroup id h) := by
  refine Together.write (fun _ _ => rfl) (fun _ => rfl) ?_ fun _ _ hk => Or.inl hk
  intro _ k hk
  exact (Dict.mem_values_of_mem_set hk).elim (fun he => Or.inr (he ▸ hh)) Or.inl

theorem Together.admitCommit (id : I) (g : Group I M) :
    Together lost names (fun h h' => h' = h ∧ lost h = none) (admitCommit id g)
      (admitCommit id g) := by
  refine Lockstep.get_bind fun u w huw => ?_
  have hw := huw
  obtain ⟨os, rfl, -⟩ := hw
  dsimp only
  by_cases hid : u.groups.contains id = true
  · rw [if_pos hid]
    exact ⟨.refl names _, huw⟩
  by_cases hms : (g.members.filter fun m => u.memberIndex.contains m) ≠ []
  · rw [if_neg hid, if_pos hms]
    exact ⟨.refl names _, huw⟩
  rw [if_neg hid, if_neg hms]
  refine Lockstep.bind (Together.allocate _) ?_ u _ huw
  rintro h _ ⟨rfl, hfree⟩
  refine Lockstep.bind (Together.narrow (fun _ _ => rfl) (fun _ => rfl) ?_ ?_) fun _ _ _ => ?_
  · exact fun _ => List.Subset.refl _
  · exact fun _ => List.Subset.refl _
  refine Lockstep.bind (Together.setGroup id hfree) fun _ _ _ => ?_
  refine Lockstep.bind (Lockstep.forM fun m _ => Together.setMember id m) fun _ _ _ => ?_
  exact Lockstep.bind (Together.setOnReady hfree _) fun _ _ _ => Lockstep.pure ⟨rfl, hfree⟩

theorem Together.admitGroup (groupId : Value I) (members : Members M) :
    Together lost names (fun h h' => h' = h ∧ lost h = none) (admitGroup groupId members)
      (admitGroup groupId members) := by
  rw [Tito.admitGroup]
  cases admitBuild groupId members with
  | error e => exact Lockstep.throw (.refl names e)
  | ok p => exact Together.admitCommit p.1 p.2

theorem Together.markReady (v : Value M) :
    Together (I := I) lost names (fun b b' => b' = b) (markReady v) (markReady v) := by
  refine Lockstep.bind (Together.groupOf v) fun o o' ho => ?_
  obtain ⟨rfl, hfree⟩ : Followed lost o o' := ho
  cases o' with
  | none => exact Lockstep.throw (.refl names _)
  | some h => exact Together.groupMarkReady (hfree h rfl) v

theorem Together.markGroupReady (id : Value I) :
    Together (M := M) lost names (fun b b' => b' = b) (markGroupReady id) (markGroupReady id) := by
  refine Lockstep.bind (Together.find id) fun o o' ho => ?_
  obtain ⟨rfl, hfree⟩ : Followed lost o o' := ho
  cases o' with
  | none => exact Lockstep.throw (.refl names _)
  | some h =>
    have hh := hfree h rfl
    refine Lockstep.bind (Together.deref hh) fun g g' hg => ?_
    rw [show g' = g.named (names h) from hg, Group.members_named]
    refine Lockstep.bind (Lockstep.forM fun m _ => ?_) fun _ _ _ => Lockstep.pure rfl
    exact Lockstep.bind (Together.groupMarkReady hh _) fun _ _ _ => Lockstep.pure trivial

omit [DecidableEq M] [DecidableEq I] in
theorem Together.clear : Together (I := I) (M := M) lost names
    (fun hs hs' => hs' = hs ∧ ∀ h ∈ hs, lost h = none) clear clear := by
  refine Lockstep.get_bind fun u w huw => ?_
  have hw := huw
  obtain ⟨os, rfl, hs⟩ := hw
  refine Lockstep.bind (Lockstep.forM fun h hh => Together.setOnReady (hs.mapped h hh) none)
    (fun _ _ _ => ?_) u _ huw
  refine Lockstep.bind (Together.narrow (fun _ _ => rfl) (fun _ => rfl) ?_ ?_) fun _ _ _ => ?_
  · exact fun _ => List.nil_subset _
  · exact fun _ => List.Subset.refl _
  refine Lockstep.bind (Together.narrow (fun _ _ => rfl) (fun _ => rfl) ?_ ?_) fun _ _ _ => ?_
  · exact fun _ => List.Subset.refl _
  · exact fun _ => List.Subset.refl _
  refine Lockstep.bind (Together.narrow (fun _ _ => rfl) (fun _ => rfl) ?_ ?_) fun _ _ _ => ?_
  · exact fun _ => List.Subset.refl _
  · exact fun _ => List.nil_subset _
  refine Lockstep.bind (Together.narrow (fun _ _ => rfl) (fun _ => rfl) ?_ ?_) fun _ _ _ => ?_
  · exact fun _ => List.Subset.refl _
  · exact fun _ => List.Subset.refl _
  exact Lockstep.pure ⟨rfl, hs.mapped⟩

theorem cancel_meets {u w : World I M} (huw : Alike lost names u w) {id : Value I}
    (hid : ∀ i h, id = .hashable i → u.groups.get? i = some h → names h = none) :
    Meets (Alike lost names) (SameError names) (fun h h' => h' = h ∧ lost h = none)
      ((cancel id).run u) ((cancel id).run w) := by
  refine (Together.find id u w huw).bind ?_
  rintro o o' u' w' hfind ⟨rfl, hfree⟩ huw'
  cases o' with
  | none => exact ⟨.refl names _, huw'⟩
  | some h =>
    have hname : names h = none := by
      cases id with
      | unhashable t => cases hfind
      | hashable i =>
        refine hid i h rfl ?_
        simp only [find, EStateM.run_bind, EStateM.run_get, EStateM.run_pure,
          EStateM.Result.ok.injEq] at hfind
        exact hfind.1
    refine Lockstep.bind (Together.remove (hfree h rfl) hname) (fun _ _ _ => ?_) u' w' huw'
    exact Lockstep.pure ⟨rfl, hfree h rfl⟩

theorem release_meets {u w : World I M} (huw : Alike lost names u w)
    (hpeek : ∀ h u', peek.run u = .ok (some h) u' → names h = none) :
    Meets (Alike lost names) (SameError names) (Followed lost) (release.run u) (release.run w) := by
  refine (Together.peek u w huw).bind ?_
  rintro o o' u' w' hp ⟨rfl, hfree⟩ huw'
  cases o' with
  | none => exact ⟨⟨rfl, hfree⟩, huw'⟩
  | some h =>
    have hremove := Together.remove (M := M) (hfree h rfl) (hpeek h u' hp)
    refine Lockstep.bind hremove (fun _ _ _ => ?_) u' w' huw'
    exact Lockstep.pure ⟨rfl, hfree⟩

theorem release_shown {u v v' : World I M} {o : Option Handle} {h : Handle}
    (hr : release.run u = .ok o v) (hp : peek.run u = .ok (some h) v') : o = some h := by
  obtain ⟨o', t, hp', hr⟩ := bind_ok hr
  rw [hp] at hp'
  cases hp'
  obtain ⟨_, t', -, hr⟩ := bind_ok hr
  cases hr
  rfl

theorem releaseAllLoop_keeps {released hs : List Handle} {u u' : World I M}
    (h : releaseAllLoop released u = .ok hs u') : released <+: hs := by
  induction released, u using releaseAllLoop.induct with
  | case1 released u v hr =>
    rw [releaseAllLoop_eq, hr] at h
    cases h
    exact List.prefix_rfl
  | case2 released u g v hr ih =>
    rw [releaseAllLoop_eq, hr] at h
    exact (List.prefix_append _ _).trans (ih h)
  | case3 released u e v hr =>
    rw [releaseAllLoop_eq, hr] at h
    cases h

theorem releaseAllLoop_meets {released hs : List Handle} {u u' w : World I M}
    (huw : Alike lost names u w) (hrun : releaseAllLoop released u = .ok hs u')
    (hname : ∀ h ∈ hs, names h = none) (hfree : ∀ h ∈ released, lost h = none) :
    Meets (Alike lost names) (SameError names) (fun hs hs' => hs' = hs ∧ ∀ h ∈ hs, lost h = none)
      (releaseAllLoop released u) (releaseAllLoop released w) := by
  -- On the rounds of the loop on `u`, which the loop on `w` follows one by one.
  induction released, u using releaseAllLoop.induct generalizing w with
  | case1 released u v hr =>
    have hm := release_meets huw fun h v' hp => nomatch release_shown hr hp
    rw [hr] at hm
    obtain ⟨o, w', hw, ⟨rfl, -⟩, hvw⟩ := hm.ok
    rw [releaseAllLoop_eq, hr, releaseAllLoop_eq released w, hw]
    exact ⟨⟨rfl, hfree⟩, hvw⟩
  | case2 released u g v hr ih =>
    rw [releaseAllLoop_eq, hr] at hrun
    have hg : ∀ h v', peek.run u = .ok (some h) v' → names h = none := by
      intro h v' hp
      rw [← Option.some.inj (release_shown hr hp)]
      have hg : g ∈ hs :=
        (releaseAllLoop_keeps hrun).subset (List.mem_append_right _ (List.mem_singleton_self g))
      exact hname g hg
    have hm := release_meets huw hg
    rw [hr] at hm
    obtain ⟨o, w', hw, ⟨rfl, hlost⟩, hvw⟩ := hm.ok
    rw [releaseAllLoop_eq, hr, releaseAllLoop_eq released w, hw]
    refine ih hvw hrun ?_
    intro h hh
    rcases List.mem_append.mp hh with hh | hh
    · exact hfree h hh
    · rw [List.mem_singleton.mp hh]
      exact hlost g rfl
  | case3 released u e v hr =>
    rw [releaseAllLoop_eq, hr] at hrun
    cases hrun

/-- The ids that the departures of a call go by are those that the groups bear, and its handle leads
to no lost object. -/
def Harmless (lost : Handle → Option (Group I M × Group I M)) (names : Handle → Option I)
    (u : World I M) : Op I M → Prop
  | .cancel id => ∀ i h, id = .hashable i → u.groups.get? i = some h → names h = none
  | .release => ∀ h u', peek.run u = .ok (some h) u' → names h = none
  | .releaseAll => ∃ hs u', releaseAllLoop [] u = .ok hs u' ∧ ∀ h ∈ hs, names h = none
  | .groupMarkReady h _ => lost h = none
  | _ => True

theorem perform_meets {u w : World I M} (huw : Alike lost names u w) {op : Op I M}
    (hop : Harmless lost names u op) :
    Meets (Alike lost names) (SameError names) (fun a a' => a' = a.named names)
      ((perform op).run u) ((perform op).run w) := by
  cases op with
  | admitGroup groupId members =>
    refine (Together.admitGroup groupId members u w huw).bind ?_
    rintro h h' u' w' - ⟨rfl, hh⟩ huw'
    exact Together.showGroup (.of_some hh) u' w' huw'
  | markReady member =>
    exact Together.showBool (Together.markReady member) u w huw
  | markGroupReady groupId =>
    exact Together.showBool (Together.markGroupReady groupId) u w huw
  | groupOf member =>
    refine (Together.groupOf member u w huw).bind ?_
    rintro o o' u' w' - ho huw'
    exact Together.showGroup ho u' w' huw'
  | cancel groupId =>
    refine (cancel_meets huw hop).bind ?_
    rintro h h' u' w' - ⟨rfl, hh⟩ huw'
    exact Together.showGroup (.of_some hh) u' w' huw'
  | clear =>
    refine (Together.clear u w huw).bind ?_
    rintro hs hs' u' w' - ⟨rfl, hfree⟩ huw'
    exact Together.showGroups hfree u' w' huw'
  | peek =>
    refine (Together.peek u w huw).bind ?_
    rintro o o' u' w' - ho huw'
    exact Together.showGroup ho u' w' huw'
  | release =>
    refine (release_meets huw hop).bind ?_
    rintro o o' u' w' - ho huw'
    exact Together.showGroup ho u' w' huw'
  | releaseAll =>
    obtain ⟨hs, v, hrun, hname⟩ := hop
    refine Meets.bind (p := releaseAll) (q := releaseAll)
      (releaseAllLoop_meets huw hrun hname fun _ hh => nomatch hh) ?_
    rintro hs hs' u' w' - ⟨rfl, hfree⟩ huw'
    exact Together.showGroups hfree u' w' huw'
  | groups =>
    obtain ⟨os, rfl, hs⟩ := huw
    exact Together.showGroups hs.mapped u _ ⟨os, rfl, hs⟩
  | len =>
    obtain ⟨os, rfl, hs⟩ := huw
    exact ⟨rfl, os, rfl, hs⟩
  | contains member =>
    exact Together.showBool (Together.contains member) u w huw
  | groupMarkReady group member =>
    exact Together.showBool (Together.groupMarkReady hop member) u w huw

/-- A call has the same outcome and the same effect on queues that are alike. -/
theorem step_alike {u w : World I M} (huw : Alike lost names u w) {op : Op I M}
    (hop : Harmless lost names u op) :
    Told names (step u op).1 (step w op).1 ∧ Alike lost names (step u op).2 (step w op).2 := by
  have hm := perform_meets huw hop
  rw [step, step, attempt, attempt]
  cases hu : (perform op).run u with
  | ok a u' =>
    rw [hu] at hm
    obtain ⟨a', w', hw, htold, hnext⟩ := hm.ok
    rw [hw]
    exact ⟨htold, hnext⟩
  | error e u' =>
    rw [hu] at hm
    obtain ⟨e', w', hw, htold, hnext⟩ := hm.error
    rw [hw]
    exact ⟨htold, hnext⟩

end Tito
