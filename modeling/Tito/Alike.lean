import Tito.Marking
import Tito.Lib.Relational

namespace Tito

open Lib Lib.Heapq Lib.Relational

variable {I M : Type}

/-- A group under the id that was assigned to it, if one was. -/
def Group.named (name : Option I) (g : Group I M) : Group I M :=
  match name with
  | none => g
  | some id => { g with groupId := .hashable id }

def Entry.named (names : Handle → Option I) (e : Entry I M) : Entry I M :=
  { e with groupId := (names e.handle).elim e.groupId .hashable }

def Answer.named (names : Handle → Option I) : Answer I M → Answer I M
  | .group e => .group (e.named names)
  | .groups es => .groups (es.map (Entry.named names))
  | a => a

/-- The group objects `os` can stand in for those of `u`: where they are not `lost` they are the
same up to the assigned ids, and `u` leads to no object that is lost. -/
structure Shadows (lost : Handle → Option (Group I M × Group I M)) (names : Handle → Option I)
    (u : World I M) (os : List (Group I M)) : Prop where
  length : os.length = u.objects.length
  object : ∀ h : Handle, lost h = none → os[h]? = u.objects[h]?.map (Group.named (names h))
  apart : ∀ (h : Handle) p, lost h = some p → u.objects[h]? = some p.1 ∧ os[h]? = some p.2
  mapped : ∀ h ∈ u.groups.values, lost h = none
  indexed : ∀ h ∈ u.readyGroups.values, lost h = none
  fresh : ∀ h, u.objects.length ≤ h → lost h = none ∧ names h = none

/-- The queues `u` and `w` differ in their group objects only, and not where it matters. -/
def Alike (lost : Handle → Option (Group I M × Group I M)) (names : Handle → Option I)
    (u w : World I M) : Prop :=
  ∃ os, w = { u with objects := os } ∧ Shadows lost names u os

/-- The same exception, or a `TitoError` with another text once ids have been assigned. -/
def SameError (names : Handle → Option I) (e e' : PyError I M) : Prop :=
  e' = e ∨ (∃ h, names h ≠ none) ∧ (∃ t, e = .tito t) ∧ ∃ t, e' = .tito t

theorem SameError.refl (names : Handle → Option I) (e : PyError I M) : SameError names e e :=
  Or.inl rfl

namespace Group

variable (name : Option I) (g : Group I M)

@[simp] theorem members_named : (g.named name).members = g.members := by cases name <;> rfl

@[simp] theorem ready_named : (g.named name).ready = g.ready := by cases name <;> rfl

@[simp] theorem sequence_named : (g.named name).sequence = g.sequence := by cases name <;> rfl

@[simp] theorem isReady_named : (g.named name).isReady = g.isReady := by cases name <;> rfl

theorem entry_named (names : Handle → Option I) (h : Handle) :
    (g.named (names h)).entry h = (g.entry h).named names := by
  cases hn : names h <;> simp [Group.entry, Group.named, Entry.named, hn]

end Group

abbrev Together (lost : Handle → Option (Group I M × Group I M)) (names : Handle → Option I)
    {α : Type} (Q : α → α → Prop) (p q : Py I M α) : Prop :=
  Lockstep (Alike lost names) (SameError names) Q p q

variable {lost : Handle → Option (Group I M × Group I M)} {names : Handle → Option I} {α : Type}

def Followed (lost : Handle → Option (Group I M × Group I M)) (o o' : Option Handle) : Prop :=
  o' = o ∧ ∀ h ∈ o, lost h = none

theorem Followed.of_some {h : Handle} (hh : lost h = none) : Followed lost (some h) (some h) := by
  refine ⟨rfl, fun k hk => ?_⟩
  rwa [← Option.some.inj hk]

section

variable {Q : α → α → Prop}

theorem Together.write {f : World I M → World I M}
    (hput : ∀ (u : World I M) os, f { u with objects := os } = { f u with objects := os })
    (hobjects : ∀ u, (f u).objects = u.objects)
    (hmapped : ∀ u, ∀ h ∈ (f u).groups.values, h ∈ u.groups.values ∨ lost h = none)
    (hindexed : ∀ u, ∀ h ∈ (f u).readyGroups.values, h ∈ u.readyGroups.values ∨ lost h = none) :
    Together lost names Done (modify f) (modify f) := by
  refine Lockstep.modify ?_
  rintro u _ ⟨os, rfl, hs⟩
  refine ⟨os, hput u os, ?_, ?_, ?_, ?_, ?_, ?_⟩
  · rw [hobjects, hs.length]
  · intro h hh
    rw [hobjects, hs.object h hh]
  · rw [hobjects]
    exact hs.apart
  · exact fun h hh => (hmapped u h hh).elim (hs.mapped h) id
  · exact fun h hh => (hindexed u h hh).elim (hs.indexed h) id
  · rw [hobjects]
    exact hs.fresh

theorem Together.narrow {f : World I M → World I M}
    (hput : ∀ (u : World I M) os, f { u with objects := os } = { f u with objects := os })
    (hobjects : ∀ u, (f u).objects = u.objects)
    (hmapped : ∀ u, (f u).groups.values ⊆ u.groups.values)
    (hindexed : ∀ u, (f u).readyGroups.values ⊆ u.readyGroups.values) :
    Together lost names Done (modify f) (modify f) :=
  Together.write hput hobjects (fun u _ hh => Or.inl (hmapped u hh))
    fun u _ hh => Or.inl (hindexed u hh)

theorem Together.deref {h : Handle} (hh : lost h = none) :
    Together lost names (fun g g' : Group I M => g' = g.named (names h)) (deref h) (deref h) := by
  rintro u _ ⟨os, rfl, hs⟩
  have hobj := hs.object h hh
  cases hg : u.objects[h]? with
  | none =>
    rw [hg, Option.map_none] at hobj
    rw [deref_run_of_none hg, deref_run_of_none hobj]
    exact ⟨.refl names _, os, rfl, hs⟩
  | some g =>
    rw [hg, Option.map_some] at hobj
    rw [deref_run hg, deref_run hobj]
    exact ⟨rfl, os, rfl, hs⟩

theorem Together.store {h : Handle} (hh : lost h = none) (g : Group I M) :
    Together lost names Done (store h g) (store h (g.named (names h))) := by
  refine Lockstep.modify ?_
  rintro u _ ⟨os, rfl, hs⟩
  refine ⟨os.set h (g.named (names h)), rfl, ?_, ?_, ?_, hs.mapped, hs.indexed, ?_⟩
  · rw [List.length_set, List.length_set, hs.length]
  · intro k hk
    rw [List.getElem?_set, List.getElem?_set, hs.length]
    by_cases hkh : h = k
    · subst hkh
      by_cases hlt : h < u.objects.length <;> simp [hlt]
    · rw [if_neg hkh, if_neg hkh, hs.object k hk]
  · intro k p hp
    have hkh : h ≠ k := by
      rintro rfl
      rw [hh] at hp
      cases hp
    rw [List.getElem?_set_ne hkh, List.getElem?_set_ne hkh]
    exact hs.apart k p hp
  · rw [List.length_set]
    exact hs.fresh

theorem Together.allocate (g : Group I M) :
    Together lost names (fun h h' => h' = h ∧ lost h = none) (allocate g) (allocate g) := by
  rintro u _ ⟨os, rfl, hs⟩
  obtain ⟨hfree, -⟩ := hs.fresh u.objects.length (Nat.le_refl _)
  refine ⟨⟨hs.length, hfree⟩, os ++ [g], rfl, ?_, ?_, ?_, hs.mapped, hs.indexed, ?_⟩
  · rw [List.length_append, List.length_append, hs.length]
  · intro k hk
    rw [List.getElem?_append, List.getElem?_append, hs.length]
    split
    · exact hs.object k hk
    · rename_i hge
      have hnone : names k = none := (hs.fresh k (Nat.le_of_not_lt hge)).2
      rw [hnone]
      exact (congrFun Option.map_id _).symm
  · intro k p hp
    obtain ⟨hu, hos⟩ := hs.apart k p hp
    have hlt : k < u.objects.length := (List.getElem?_eq_some_iff.mp hu).1
    rw [List.getElem?_append_left hlt, List.getElem?_append_left (hs.length ▸ hlt)]
    exact ⟨hu, hos⟩
  · intro k hk
    rw [List.length_append] at hk
    exact hs.fresh k (Nat.le_trans (Nat.le_add_right _ _) hk)

theorem Together.setOnReady {h : Handle} (hh : lost h = none) (c : Option ReadyCallback) :
    Together (I := I) (M := M) lost names Done (setOnReady h c) (setOnReady h c) := by
  refine (Together.deref hh).bind ?_
  rintro g _ rfl
  have hset : { g.named (names h) with onReady := c } =
      Group.named (names h) { g with onReady := c } := by
    cases names h <;> rfl
  rw [hset]
  exact Together.store hh _

theorem Together.popReady (s : Nat) :
    Together (I := I) (M := M) lost names (fun b b' => b' = b) (popReady s) (popReady s) := by
  refine Lockstep.get_ite ?_ ?_ (Lockstep.pure rfl)
  · rintro u _ ⟨os, rfl, -⟩
    exact Iff.rfl
  · refine Lockstep.bind (Together.narrow (fun _ _ => rfl) (fun _ => rfl) ?_ ?_) fun _ _ _ =>
      Lockstep.pure rfl
    · exact fun _ => List.Subset.refl _
    · exact fun _ _ hh => Dict.mem_values_of_mem_erase hh

theorem Together.noteReady {h : Handle} (hh : lost h = none) :
    Together (I := I) (M := M) lost names Done (noteReady h) (noteReady h) := by
  refine (Together.deref hh).bind ?_
  rintro g _ rfl
  rw [Group.sequence_named]
  refine Lockstep.get_ite ?_ (Lockstep.pure trivial) ?_
  · rintro u _ ⟨os, rfl, -⟩
    exact Iff.rfl
  refine Lockstep.bind (Together.write (fun _ _ => rfl) (fun _ => rfl) ?_ ?_) fun _ _ _ =>
    Together.narrow (fun _ _ => rfl) (fun _ => rfl) ?_ ?_
  · exact fun _ _ hk => Or.inl hk
  · exact fun _ k hk => (Dict.mem_values_of_mem_set hk).elim (fun he => Or.inr (he ▸ hh)) Or.inl
  · exact fun _ => List.Subset.refl _
  · exact fun _ => List.Subset.refl _

theorem Together.compactReadyHeap :
    Together (I := I) (M := M) lost names Done compactReadyHeap compactReadyHeap := by
  refine Lockstep.get_ite ?_ (Lockstep.pure trivial)
    (Together.narrow (fun _ _ => rfl) (fun _ => rfl) ?_ ?_)
  · rintro u _ ⟨os, rfl, -⟩
    exact Iff.rfl
  · exact fun _ => List.Subset.refl _
  · exact fun _ => List.Subset.refl _

theorem Together.delGroup [DecidableEq I] (id : Value I) :
    Together (I := I) (M := M) lost names Done (delGroup id) (delGroup id) := by
  cases id with
  | unhashable t => exact Lockstep.throw (.refl names _)
  | hashable id =>
    refine Lockstep.get_ite ?_ (Together.narrow (fun _ _ => rfl) (fun _ => rfl) ?_ ?_)
      (Lockstep.throw (.refl names _))
    · rintro u _ ⟨os, rfl, -⟩
      exact Iff.rfl
    · exact fun _ _ hh => Dict.mem_values_of_mem_erase hh
    · exact fun _ => List.Subset.refl _

theorem Together.delMember [DecidableEq M] (m : M) :
    Together (I := I) (M := M) lost names Done (delMember m) (delMember m) := by
  refine Lockstep.get_ite ?_ (Together.narrow (fun _ _ => rfl) (fun _ => rfl) ?_ ?_)
    (Lockstep.throw (.refl names _))
  · rintro u _ ⟨os, rfl, -⟩
    exact Iff.rfl
  · exact fun _ => List.Subset.refl _
  · exact fun _ => List.Subset.refl _

end

theorem peekLoop_put (u : World I M) (os : List (Group I M)) :
    (peekLoop { u with objects := os }).1 = (peekLoop u).1 ∧
      (peekLoop { u with objects := os }).2 = { (peekLoop u).2 with objects := os } := by
  induction u using peekLoop.induct with
  | case1 u hu =>
    rw [peekLoop_nil hu, peekLoop_nil (w := { u with objects := os }) hu]
    exact ⟨rfl, rfl⟩
  | case2 u top t hu g hg =>
    rw [peekLoop_live hu hg, peekLoop_live (w := { u with objects := os }) hu hg]
    exact ⟨rfl, rfl⟩
  | case3 u top t hu hg ih =>
    rw [peekLoop_stale hu hg, peekLoop_stale (w := { u with objects := os }) hu hg]
    exact ih

theorem peekLoop_groups (u : World I M) :
    (peekLoop u).2.objects = u.objects ∧ (peekLoop u).2.groups = u.groups ∧
      (peekLoop u).2.readyGroups = u.readyGroups ∧
      ∀ h ∈ (peekLoop u).1, h ∈ u.readyGroups.values := by
  induction u using peekLoop.induct with
  | case1 u hu => simp [peekLoop_nil hu]
  | case2 u top t hu g hg =>
    rw [peekLoop_live hu hg]
    refine ⟨rfl, rfl, rfl, fun h hh => ?_⟩
    rw [← Option.some.inj hh]
    exact Dict.mem_values_of_get? hg
  | case3 u top t hu hg ih =>
    rw [peekLoop_stale hu hg]
    exact ih

variable [DecidableEq M]

theorem Group.markReady_named (name : Option I) (g : Group I M) (v : Value M) :
    (∃ t t', g.markReady v = .error (.tito t) ∧ (g.named name).markReady v = .error (.tito t') ∧
      (name = none → t' = t)) ∨
    ∃ marked, g.markReady v = .ok marked ∧ (g.named name).markReady v =
      .ok { marked with group := marked.group.named name } := by
  cases v with
  | unhashable t => exact Or.inl ⟨_, _, rfl, rfl, fun hn => by rw [hn]; rfl⟩
  | hashable m =>
    have hr : (g.named name).ready = g.ready := g.ready_named name
    cases hm : g.ready.get? m with
    | none =>
      refine Or.inl ⟨_, _, markReady_of_none hm, markReady_of_none (hr ▸ hm), fun hn => ?_⟩
      rw [hn]
      rfl
    | some b =>
      have hm' : (g.named name).ready.get? m = some b := hr ▸ hm
      refine Or.inr ?_
      cases name <;> cases b
      · exact ⟨_, markReady_of_false hm, markReady_of_false hm'⟩
      · exact ⟨_, markReady_of_true hm, markReady_of_true hm'⟩
      · exact ⟨_, markReady_of_false hm, markReady_of_false hm'⟩
      · exact ⟨_, markReady_of_true hm, markReady_of_true hm'⟩

theorem Together.groupMarkReady {h : Handle} (hh : lost h = none) (v : Value M) :
    Together (I := I) lost names (fun b b' => b' = b) (groupMarkReady h v)
      (groupMarkReady h v) := by
  refine (Together.deref hh).bind ?_
  rintro g _ rfl
  rcases g.markReady_named (names h) v with ⟨t, t', hg, hg', hsame⟩ | ⟨marked, hg, hg'⟩
  · rw [hg, hg']
    refine Lockstep.throw ?_
    by_cases hn : names h = none
    · rw [hsame hn]
      exact .refl names _
    · exact Or.inr ⟨⟨h, hn⟩, ⟨t, rfl⟩, t', rfl⟩
  · rw [hg, hg']
    refine Lockstep.bind (Together.store hh marked.group) fun _ _ _ => ?_
    cases marked.call with
    | none => exact Lockstep.pure rfl
    | some c => exact Lockstep.bind (Together.noteReady hh) fun _ _ _ => Lockstep.pure rfl

variable [DecidableEq I]

/-- A removal finds its group under the id that the group bears, if that is its own. -/
theorem Together.remove {h : Handle} (hh : lost h = none) (hname : names h = none) :
    Together (I := I) (M := M) lost names Done (remove h) (remove h) := by
  refine (Together.deref hh).bind ?_
  rintro g _ rfl
  rw [hname]
  refine Lockstep.bind (Together.delGroup g.groupId) fun _ _ _ => ?_
  refine Lockstep.bind (Lockstep.forM fun m _ => Together.delMember m) fun _ _ _ => ?_
  refine Lockstep.bind (Together.setOnReady hh none) fun _ _ _ => ?_
  rw [Group.sequence_named]
  refine Lockstep.bind (Together.popReady g.sequence) fun b b' hb => ?_
  obtain rfl : b' = b := hb
  cases b' with
  | true => exact Together.compactReadyHeap
  | false => exact Lockstep.pure trivial

omit [DecidableEq M] in
theorem Together.find (id : Value I) :
    Together (I := I) (M := M) lost names (Followed lost) (find id) (find id) := by
  cases id with
  | unhashable t => exact Lockstep.pure ⟨rfl, fun _ hh => nomatch hh⟩
  | hashable id =>
    refine Lockstep.get_bind ?_
    rintro u _ ⟨os, rfl, hs⟩
    exact ⟨⟨rfl, fun h hh => hs.mapped h (Dict.mem_values_of_get? hh)⟩, os, rfl, hs⟩

theorem Together.groupOf (v : Value M) :
    Together (I := I) lost names (Followed lost) (groupOf v) (groupOf v) := by
  cases v with
  | unhashable t => exact Lockstep.pure ⟨rfl, fun _ hh => nomatch hh⟩
  | hashable m =>
    refine Lockstep.get_bind ?_
    rintro u _ ⟨os, rfl, hs⟩
    dsimp only
    cases u.memberIndex.get? m with
    | none => exact ⟨⟨rfl, fun _ hh => nomatch hh⟩, os, rfl, hs⟩
    | some id =>
      cases hid : u.groups.get? id with
      | none =>
        simp only [EStateM.run_bind, EStateM.run_get, hid]
        exact ⟨.refl names _, os, rfl, hs⟩
      | some h =>
        simp only [EStateM.run_bind, EStateM.run_get, hid]
        exact ⟨.of_some (hs.mapped h (Dict.mem_values_of_get? hid)), os, rfl, hs⟩

omit [DecidableEq I] in
theorem Together.contains (v : Value M) :
    Together (I := I) lost names (fun b b' => b' = b) (contains v) (contains v) := by
  cases v with
  | unhashable t => exact Lockstep.pure rfl
  | hashable m =>
    refine Lockstep.get_bind ?_
    rintro u _ ⟨os, rfl, hs⟩
    exact ⟨rfl, os, rfl, hs⟩

omit [DecidableEq M] [DecidableEq I] in
theorem Together.peekLoop : Together (I := I) (M := M) lost names (Followed lost)
    (modifyGet Tito.peekLoop) (modifyGet Tito.peekLoop) := by
  rintro u _ ⟨os, rfl, hs⟩
  obtain ⟨hobjects, hgroups, hready, hshown⟩ := peekLoop_groups u
  obtain ⟨hresult, hstate⟩ := peekLoop_put u os
  refine ⟨⟨hresult, fun h hh => hs.indexed h (hshown h hh)⟩, os, hstate, ?_⟩
  exact ⟨hobjects ▸ hs.length, hobjects ▸ hs.object, hobjects ▸ hs.apart, hgroups ▸ hs.mapped,
    hready ▸ hs.indexed, hobjects ▸ hs.fresh⟩

omit [DecidableEq M] [DecidableEq I] in
theorem Together.peek : Together (I := I) (M := M) lost names (Followed lost) peek peek := by
  refine Lockstep.get_bind fun u w huw => ?_
  obtain ⟨os, rfl, hs⟩ := huw
  by_cases hstrict : u.strictOrder = true
  · rw [if_pos hstrict]
    cases hv : u.groups.values with
    | nil => exact ⟨⟨rfl, fun _ hh => nomatch hh⟩, os, rfl, hs⟩
    | cons h t =>
      have hfree : lost h = none := hs.mapped h (hv ▸ List.mem_cons_self)
      refine Meets.bind (Together.deref hfree u _ ⟨os, rfl, hs⟩) ?_
      rintro g _ t w' - rfl htw
      rw [Group.isReady_named]
      split
      · exact Lockstep.pure (.of_some hfree) t w' htw
      · exact Lockstep.pure ⟨rfl, fun _ hh => nomatch hh⟩ t w' htw
  · rw [if_neg hstrict]
    exact Together.peekLoop u _ ⟨os, rfl, hs⟩

end Tito
