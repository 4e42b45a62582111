import Tito.FromScratch
import Tito.Policies

namespace Tito.FromScratch

open Lib Lib.Mealy

variable {I M : Type}

/-- What an error of the package is called in the example. -/
inductive Brief : Tito.TitoError I M → TitoError I M → Prop
  | noMembers (g : I) : Brief (.noMembers (.hashable g)) (.noMembers g)
  | duplicateMembers (g : I) (ds : List M) :
      Brief (.duplicateMembers (.hashable g) ds) (.duplicateMembers g)
  | notAMember (m : M) (g : I) (ms : List M) :
      Brief (.notAMember (.hashable m) (.hashable g) ms) (.notAMember m g)
  | idInQueue (g : I) : Brief (.idInQueue g) (.idInQueue g)
  | membersInQueue (ms : List M) (held : List (M × I)) :
      Brief (.membersInQueue ms held) (.membersInQueue ms)
  | memberNotQueued (m : M) : Brief (.memberNotQueued (.hashable m)) (.memberNotQueued m)
  | groupNotQueued (g : I) : Brief (.groupNotQueued (.hashable g)) (.groupNotQueued g)

/-- The same answer, or an error of the same kind about the same things. Where its text cannot be
formatted, a `TypeError` takes its place. -/
inductive Agrees (t : Texts I M) : Except (PyError I M) (Answer I M) → Outcome I M → Prop
  | ok (a : Answer I M) : Agrees t (.ok a) (.ok a)
  | tito {e : Tito.TitoError I M} {e' : TitoError I M} {text : String} (h : Brief e e')
      (ht : e'.message t = some text) : Agrees t (.error (.tito e')) (.error (.tito e))
  | untold {e : Tito.TitoError I M} {e' : TitoError I M} (h : Brief e e')
      (ht : e'.message t = none) : Agrees t (.error .typeError) (.error (.tito e))
  | noObject : Agrees t (.error .noObject) (.error .noObject)

/-- A group of the example and the group of the package that it stands for. -/
structure Same (s : Group I M) (g : Tito.Group I M) : Prop where
  groupId : g.groupId = .hashable s.groupId
  members : g.members = s.members
  ready : g.ready = s.ready
  readyCount : g.readyCount = s.readyCount

theorem Same.isReady {s : Group I M} {g : Tito.Group I M} (h : Same s g) :
    g.isReady = s.isReady := by
  rw [Tito.Group.isReady, Group.isReady, h.readyCount, h.members]

theorem Same.entry {s : Group I M} {g : Tito.Group I M} (h : Same s g) (k : Handle) :
    g.entry k = s.entry k := by
  rw [Tito.Group.entry, Group.entry, h.groupId, h.ready]

theorem Same.flag [DecidableEq M] {s : Group I M} {g : Tito.Group I M} (h : Same s g) {m : M}
    (hs : s.ready.get? m = some false) (hg : g.ready.get? m = some false) :
    Same (s.flag m hs) (g.flag m hg) where
  groupId := h.groupId
  members := h.members
  ready := congrArg (fun d => d.set m true) h.ready
  readyCount := congrArg (· + 1) h.readyCount

section

variable [DecidableEq M] {g : Group I M} {m : M}

theorem Group.markReady_of_none (hm : g.ready.get? m = none) :
    g.markReady m = .error (.notAMember m g.groupId) := by
  rw [markReady]
  split <;> simp_all

theorem Group.markReady_of_true (hm : g.ready.get? m = some true) :
    g.markReady m = .ok (g, g.isReady) := by
  rw [markReady]
  split <;> simp_all

theorem Group.markReady_of_false (hm : g.ready.get? m = some false) :
    g.markReady m = .ok (g.flag m hm, (g.flag m hm).isReady) := by
  rw [markReady]
  split <;> simp_all

end

variable [DecidableEq I] [DecidableEq M]

/-- A queue of the example beside a strict queue of the package, which has no more than the two
maps either. -/
structure Mirrors (t : Texts I M) (strictOrder : Bool) (q : Queue I M) (w : World I M) : Prop where
  consistent : Consistent w
  strict : w.strictOrder = true
  policy : q.strictOrder = strictOrder
  groups : q.groups = w.groups
  memberIndex : q.memberIndex = w.memberIndex
  objects : ∀ h : Handle, Option.Rel Same q.objects[h]? w.objects[h]?
  named : ∀ id ∈ q.groups.keys, t.isNone id = false

theorem mirrors_init (t : Texts I M) (strictOrder : Bool) :
    Mirrors t strictOrder (Queue.init strictOrder : Queue I M) (World.init true) where
  consistent := init_consistent true
  strict := rfl
  policy := rfl
  groups := rfl
  memberIndex := rfl
  objects := fun _ => .none
  named := fun _ hid => nomatch hid

/-- What the two calls leave: the same value, or an error of the same kind. -/
inductive Alike {α : Type} (t : Texts I M) (strictOrder : Bool) :
    EStateM.Result (PyError I M) (Queue I M) α →
    EStateM.Result (Tito.PyError I M) (World I M) α → Prop
  | ok {q : Queue I M} {w : World I M} (a : α) (h : Mirrors t strictOrder q w) :
      Alike t strictOrder (.ok a q) (.ok a w)
  | tito {q : Queue I M} {w : World I M} {e : Tito.TitoError I M} {e' : TitoError I M}
      {text : String} (he : Brief e e') (ht : e'.message t = some text)
      (h : Mirrors t strictOrder q w) : Alike t strictOrder (.error (.tito e') q) (.error (.tito e) w)
  | untold {q : Queue I M} {w : World I M} {e : Tito.TitoError I M} {e' : TitoError I M}
      (he : Brief e e') (ht : e'.message t = none) (h : Mirrors t strictOrder q w) :
      Alike t strictOrder (.error .typeError q) (.error (.tito e) w)
  | noObject {q : Queue I M} {w : World I M} (h : Mirrors t strictOrder q w) :
      Alike t strictOrder (.error .noObject q) (.error .noObject w)

theorem Alike.refused {α : Type} {t : Texts I M} {strictOrder : Bool} {q : Queue I M}
    {w : World I M} {e : Tito.TitoError I M} {e' : TitoError I M} (he : Brief e e')
    (h : Mirrors t strictOrder q w) :
    Alike t strictOrder ((refuse t e' : Py I M α).run q) (.error (.tito e) w) := by
  rw [refuse]
  cases ht : e'.message t with
  | none => exact .untold he ht h
  | some text => exact .tito he ht h

theorem Alike.bind {t : Texts I M} {strictOrder : Bool} {α β : Type} {x : Py I M α}
    {y : Tito.Py I M α} {f : α → Py I M β} {g : α → Tito.Py I M β} {q : Queue I M} {w : World I M}
    (h : Alike t strictOrder (x.run q) (y.run w))
    (hf : ∀ a q' w', Mirrors t strictOrder q' w' →
      Alike t strictOrder ((f a).run q') ((g a).run w')) :
    Alike t strictOrder ((x >>= f).run q) ((y >>= g).run w) := by
  rw [EStateM.run_bind, EStateM.run_bind]
  generalize x.run q = r, y.run w = r' at h
  cases h with
  | ok a h => exact hf a _ _ h
  | tito he ht h => exact .tito he ht h
  | untold he ht h => exact .untold he ht h
  | noObject h => exact .noObject h

theorem Alike.pure {t : Texts I M} {strictOrder : Bool} {α : Type} {q : Queue I M}
    {w : World I M} (h : Mirrors t strictOrder q w) (a : α) :
    Alike t strictOrder ((pure a : Py I M α).run q) ((pure a : Tito.Py I M α).run w) := .ok a h

namespace Mirrors

variable {t : Texts I M} {strictOrder : Bool} {q : Queue I M} {w : World I M}
  (h : Mirrors t strictOrder q w)

include h

theorem object {k : Handle} {g : Tito.Group I M} (hg : w.objects[k]? = some g) :
    ∃ s, q.objects[k]? = some s ∧ Same s g := by
  have hrel := h.objects k
  rw [hg] at hrel
  generalize q.objects[k]? = o at hrel
  cases hrel with
  | some hs => exact ⟨_, rfl, hs⟩

theorem no_object {k : Handle} (hg : w.objects[k]? = none) : q.objects[k]? = none := by
  have hrel := h.objects k
  rw [hg] at hrel
  generalize q.objects[k]? = o at hrel
  cases hrel
  rfl

theorem length : q.objects.length = w.objects.length := by
  have hle : w.objects.length ≤ q.objects.length := by
    by_contra hlt
    obtain ⟨s, hs, _⟩ := h.object (List.getElem?_eq_getElem (Nat.lt_of_not_le hlt))
    simp at hs
  refine Nat.le_antisymm ?_ hle
  exact List.getElem?_eq_none_iff.mp (h.no_object (List.getElem?_eq_none (Nat.le_refl _)))

theorem look : q.look = w.look := by
  funext k
  rw [Queue.look, World.look]
  cases hg : w.objects[k]? with
  | none => rw [h.no_object hg]; rfl
  | some g =>
    obtain ⟨s, hs, hsame⟩ := h.object hg
    rw [hs, Option.map_some, Option.map_some, hsame.entry]

theorem set_objects {k : Handle} {s : Group I M} {g : Tito.Group I M} (hsame : Same s g) (j : Handle) :
    Option.Rel Same (q.objects.set k s)[j]? (w.objects.set k g)[j]? := by
  rw [List.getElem?_set, List.getElem?_set, h.length]
  split
  · split
    · exact .some hsame
    · exact .none
  · exact h.objects j

theorem marked {k : Handle} {s : Group I M} {g : Tito.Group I M} (hg : w.objects[k]? = some g)
    (hsame : Same s g) {m : M} (hs : s.ready.get? m = some false) (hm : g.ready.get? m = some false) :
    Mirrors t strictOrder { q with objects := q.objects.set k (s.flag m hs) }
      (w.marked k g m hm) := by
  have hfields : (w.marked k g m hm).strictOrder = w.strictOrder ∧
      (w.marked k g m hm).groups = w.groups ∧ (w.marked k g m hm).memberIndex = w.memberIndex ∧
      (w.marked k g m hm).objects = w.objects.set k (g.flag m hm) := by
    rw [World.marked]
    split <;> exact ⟨rfl, rfl, rfl, rfl⟩
  obtain ⟨hstrict, hgroups, hmembers, hobjects⟩ := hfields
  refine ⟨marked_consistent h.consistent hg hm, hstrict.trans h.strict, h.policy, ?_, ?_, fun j => ?_,
    h.named⟩
  · exact h.groups.trans hgroups.symm
  · exact h.memberIndex.trans hmembers.symm
  · rw [hobjects]
    exact h.set_objects (hsame.flag hs hm) j

theorem groupMarkReady (k : Handle) (m : M) :
    Alike t strictOrder ((FromScratch.groupMarkReady t k m).run q)
      ((Tito.groupMarkReady k (.hashable m)).run w) := by
  cases hg : w.objects[k]? with
  | none =>
    have hs := h.no_object hg
    rw [groupMarkReady_run_of_absent hg]
    simp only [FromScratch.groupMarkReady, FromScratch.deref, EStateM.run_bind, EStateM.run_get, hs,
      Effects.run_throw]
    exact .noObject h
  | some g =>
    obtain ⟨s, hs, hsame⟩ := h.object hg
    have hderef : (FromScratch.deref k).run q = .ok s q := by simp [FromScratch.deref, hs]
    have hready := hsame.ready
    cases hm : g.ready.get? m with
    | none =>
      have hsm : s.ready.get? m = none := hready ▸ hm
      rw [groupMarkReady_run_of_none hg hm, hsame.groupId]
      simp only [FromScratch.groupMarkReady, EStateM.run_bind, hderef, Group.markReady_of_none hsm]
      exact .refused (.notAMember m s.groupId g.members) h
    | some b =>
      have hsm : s.ready.get? m = some b := hready ▸ hm
      cases b with
      | true =>
        have hset : q.objects.set k s = q.objects := by
          obtain ⟨hlt, he⟩ := List.getElem?_eq_some_iff.mp hs
          rw [← he, List.set_getElem_self]
        rw [groupMarkReady_run_of_true hg hm, hsame.isReady]
        simp only [FromScratch.groupMarkReady, EStateM.run_bind, hderef, Group.markReady_of_true hsm,
          EStateM.run_modify, hset]
        exact .ok _ h
      | false =>
        rw [groupMarkReady_run_of_false h.consistent hg hm, (hsame.flag hsm hm).isReady]
        simp only [FromScratch.groupMarkReady, EStateM.run_bind, hderef, Group.markReady_of_false hsm,
          EStateM.run_modify]
        exact .ok _ (h.marked hg hsame hsm hm)

theorem groupOf (m : M) : Alike t strictOrder ((FromScratch.groupOf t m).run q)
    ((Tito.groupOf (.hashable m)).run w) := by
  rw [groupOf_run h.consistent.toRegistered, Value.toOption, Option.bind_some]
  have hindex : q.memberIndex.get? m = w.memberIndex.get? m := by rw [h.memberIndex]
  simp only [FromScratch.groupOf, EStateM.run_bind, EStateM.run_get, hindex]
  cases hm : w.memberIndex.get? m with
  | none => exact .ok _ h
  | some id =>
    obtain ⟨k, g, hid, hg, _⟩ := (h.consistent.indexed m id).mp hm
    have hid' : q.groups.get? id = some k := by rw [h.groups, hid]
    have hnamed := h.named id (Dict.mem_keys_of_get? hid')
    simp only [hnamed, Bool.false_eq_true, if_false, EStateM.run_bind, EStateM.run_get, hid',
      Option.bind_some, hid]
    exact .ok _ h

theorem markReady (m : M) : Alike t strictOrder ((FromScratch.markReady t m).run q)
    ((Tito.markReady (.hashable m)).run w) := by
  refine Alike.bind (h.groupOf m) fun o q' w' h' => ?_
  cases o with
  | none => exact .refused (.memberNotQueued m) h'
  | some k => exact h'.groupMarkReady k m

theorem markGroupReady (id : I) : Alike t strictOrder ((FromScratch.markGroupReady t id).run q)
    ((Tito.markGroupReady (.hashable id)).run w) := by
  have hmarks : ∀ (k : Handle) (ms : List M) {q w}, Mirrors t strictOrder q w →
      Alike t strictOrder
        ((ms.forM fun m => do let _ ← FromScratch.groupMarkReady t k m).run q)
        ((ms.forM fun m => do let _ ← Tito.groupMarkReady k (.hashable m)).run w) := by
    intro k ms
    induction ms with
    | nil => exact fun h => .ok _ h
    | cons m ms ih =>
      intro q w h
      refine Alike.bind ?_ fun _ q' w' h' => ih h'
      exact Alike.bind (h.groupMarkReady k m) fun _ q' w' h' => .ok _ h'
  have hget : q.groups.get? id = w.groups.get? id := by rw [h.groups]
  simp only [FromScratch.markGroupReady, Tito.markGroupReady, EStateM.run_bind, EStateM.run_get, hget,
    find_run, Value.toOption, Option.bind_some]
  cases hid : w.groups.get? id with
  | none => exact .refused (.groupNotQueued id) h
  | some k =>
    obtain ⟨g, hg, _⟩ := h.consistent.bearing id k hid
    obtain ⟨s, hs, hsame⟩ := h.object hg
    have hderef : (FromScratch.deref k).run q = .ok s q := by simp [FromScratch.deref, hs]
    simp only [EStateM.run_bind, hderef, deref_run hg, hsame.members]
    exact Alike.bind (hmarks k s.members h) fun _ q' w' h' => .ok _ h'

omit h [DecidableEq I] in
theorem forM_index_run (id : I) (ms : List M) (q : Queue I M) :
    (ms.forM fun m => (modify fun q => { q with memberIndex := q.memberIndex.set m id } :
      Py I M Unit)).run q = .ok () { q with memberIndex := q.memberIndex.setAll ms id } := by
  induction ms generalizing q with
  | nil => rfl
  | cons m ms ih => exact ih { q with memberIndex := q.memberIndex.set m id }

theorem admitted {id : I} (hid : t.isNone id = false) {s : Group I M} {g : Tito.Group I M}
    (hsame : Same s g) (hgid : g.groupId = .hashable id) (hready : g.isReady = false)
    (hfree : id ∉ w.groups.keys) (hms : ∀ m ∈ g.members, m ∉ w.memberIndex.keys) :
    Mirrors t strictOrder
      { q with
        groups := q.groups.set id q.objects.length
        memberIndex := q.memberIndex.setAll s.members id
        objects := q.objects ++ [s] } (w.admitted id g) where
  consistent := admitted_consistent h.consistent hgid hready hfree hms
  strict := h.strict
  policy := h.policy
  groups := by rw [h.groups, h.length]; rfl
  memberIndex := by rw [h.memberIndex, ← hsame.members]; rfl
  objects := by
    intro k
    have hnew : Same s { g with sequence := w.sequence, onReady := w.onReadyCallback } :=
      ⟨hsame.groupId, hsame.members, hsame.ready, hsame.readyCount⟩
    simp only [World.admitted, List.getElem?_append, h.length]
    split
    · exact h.objects k
    · cases k - w.objects.length with
      | zero => exact .some hnew
      | succ j => exact .none
  named := by
    intro j hj
    rcases Dict.mem_keys_set.mp hj with rfl | hj
    · exact hid
    · exact h.named j hj

theorem admitGroup {id : I} (hid : t.isNone id = false) (ms : List M) :
    Alike t strictOrder ((FromScratch.admitGroup t id ms).run q)
      ((Tito.admitGroup (.hashable id) (.iterable (ms.map .hashable))).run w) := by
  have hinj : ∀ {ms' : List M}, ms.map Value.hashable = ms'.map Value.hashable → ms' = ms :=
    fun he => (List.map_injective_iff.mpr (fun _ _ h => Value.hashable.inj h) he).symm
  rcases init_iterable (.hashable id) (ms.map .hashable) 0 with ⟨hnil, hi⟩ | ⟨-, hun, -⟩ |
    ⟨ms', hms', hnd, hi⟩ | ⟨ms', hne, hnd, hms', hi⟩
  · have hms : ms = [] := List.map_eq_nil_iff.mp hnil
    simp only [FromScratch.admitGroup, Group.init, hms, List.isEmpty_nil, dif_pos, Tito.admitGroup,
      admitBuild]
    exact .refused (.noMembers id) h
  · simp [isHashable] at hun
  · obtain rfl := hinj hms'
    have hne : ms' ≠ [] := fun hn => hnd (hn ▸ List.nodup_nil)
    have hlen : ¬ (Dict.fromkeys ms' false).length = ms'.length :=
      fun hl => hnd ((Dict.length_fromkeys_iff false).mp hl)
    have hempty : ¬ ms'.isEmpty = true := mt List.isEmpty_iff.mp hne
    simp only [FromScratch.admitGroup, Group.init, hempty, dif_neg, not_false_eq_true, hlen,
      Tito.admitGroup, admitBuild, hi]
    exact .refused (.duplicateMembers id _) h
  · obtain rfl := hinj hms'
    have hlen : (Dict.fromkeys ms' false).length = ms'.length :=
      (Dict.length_fromkeys_iff false).mpr hnd
    have hempty : ¬ ms'.isEmpty = true := mt List.isEmpty_iff.mp hne
    let g : Tito.Group I M := Tito.Group.fresh (.hashable id) ms' 0 hne hnd
    have hinit : Group.init id ms' = .ok (Group.fresh id ms' hempty hlen) := by
      rw [Group.init, dif_neg hempty, dif_pos hlen]
    have hcommit : (Tito.admitGroup (.hashable id) (.iterable (ms'.map .hashable))).run w =
        (admitCommit id g).run w := by
      simp only [Tito.admitGroup, admitBuild, hi, g]
    have hmembers : ∀ m, q.memberIndex.contains m = w.memberIndex.contains m := by
      intro m
      rw [h.memberIndex]
    rw [hcommit]
    simp only [FromScratch.admitGroup, hinit, EStateM.run_bind, EStateM.run_get, h.groups,
      Dict.contains_iff, hmembers, show (Group.fresh id ms' hempty hlen).members = ms' from rfl]
    by_cases hlisted : id ∈ w.groups.keys
    · rw [if_pos hlisted, admitCommit_run_of_listed hlisted]
      exact .refused (.idInQueue id) h
    · by_cases hq : ms'.filter (fun m => w.memberIndex.contains m) = []
      · have hms : ∀ m ∈ g.members, m ∉ w.memberIndex.keys := by simpa [g, Tito.Group.fresh] using hq
        have hlength : ms'.length ≠ 0 := fun hl => hne (List.length_eq_zero_iff.mp hl)
        have hready : g.isReady = false := beq_eq_false_iff_ne.mpr (Ne.symm hlength)
        have hsame : Same (Group.fresh id ms' hempty hlen) g := ⟨rfl, rfl, rfl, rfl⟩
        have hnext := h.admitted hid hsame rfl hready hlisted hms
        rw [if_neg hlisted, if_neg (not_not.mpr hq), admitCommit_run hlisted hms, ← h.length]
        simp only [EStateM.run_bind, EStateM.run_set, forM_index_run, EStateM.run_pure]
        rw [← h.groups]
        exact .ok _ hnext
      · rw [if_neg hlisted, if_pos hq, admitCommit_run_of_queued hlisted hq]
        exact .refused (.membersInQueue _ _) h

omit h [DecidableEq I] in
theorem forM_delMember_run (ms : List M) (hnd : ms.Nodup) (q : Queue I M)
    (hms : ∀ m ∈ ms, m ∈ q.memberIndex.keys) : (ms.forM FromScratch.delMember).run q =
      .ok () { q with memberIndex := q.memberIndex.eraseAll ms } := by
  induction ms generalizing q with
  | nil => rfl
  | cons m ms ih =>
    rw [List.nodup_cons] at hnd
    have hm : (FromScratch.delMember m).run q =
        .ok () { q with memberIndex := q.memberIndex.erase m } := by
      simp [FromScratch.delMember, hms m List.mem_cons_self]
    rw [List.forM_eq_forM, List.forM_cons, EStateM.run_bind, hm]
    refine ih hnd.2 { q with memberIndex := q.memberIndex.erase m } fun a ha => ?_
    exact Dict.mem_keys_erase.mpr ⟨fun he => hnd.1 (he ▸ ha), hms a (List.mem_cons_of_mem m ha)⟩

theorem remove {id : I} {k : Handle} {g : Tito.Group I M} (hid : w.groups.get? id = some k)
    (hg : w.objects[k]? = some g) : ∃ q', (FromScratch.remove k).run q = .ok () q' ∧
      Mirrors t strictOrder q' (w.removed id k g) := by
  obtain ⟨s, hs, hsame⟩ := h.object hg
  obtain ⟨g', hg', hgid⟩ := h.consistent.bearing id k hid
  obtain rfl := Option.some.inj (hg.symm.trans hg')
  have hsid : s.groupId = id := Value.hashable.inj (hsame.groupId.symm.trans hgid)
  have hderef : (FromScratch.deref k).run q = .ok s q := by simp [FromScratch.deref, hs]
  have hlisted : id ∈ q.groups.keys := h.groups ▸ Dict.mem_keys_of_get? hid
  have hmembers : ∀ m ∈ s.members, m ∈ q.memberIndex.keys := by
    rw [← hsame.members, h.memberIndex]
    exact h.consistent.member_mem_keys hid hg
  have hnodup : s.members.Nodup := hsame.members ▸ g.members_nodup
  refine ⟨{ q with
    groups := q.groups.erase id, memberIndex := q.memberIndex.eraseAll s.members }, ?_, ?_⟩
  · simp only [FromScratch.remove, EStateM.run_bind, hderef, EStateM.run_get, hsid,
      Dict.contains_iff, hlisted, if_true, EStateM.run_modify]
    exact forM_delMember_run s.members hnodup { q with groups := q.groups.erase id } hmembers
  · have hfields : (w.removed id k g).strictOrder = w.strictOrder ∧
        (w.removed id k g).groups = w.groups.erase id ∧
        (w.removed id k g).memberIndex = w.memberIndex.eraseAll g.members := by
      rw [World.removed, World.compacted]
      split
      · split <;> exact ⟨rfl, rfl, rfl⟩
      · exact ⟨rfl, rfl, rfl⟩
    obtain ⟨hstrict, hgroups, hindex⟩ := hfields
    refine ⟨removed_consistent h.consistent hid hg, hstrict.trans h.strict, h.policy, ?_, ?_, ?_, ?_⟩
    · rw [hgroups, h.groups]
    · rw [hindex, h.memberIndex, hsame.members]
    · intro j
      rw [objects_removed, List.getElem?_set]
      by_cases hj : k = j
      · subst hj
        rw [if_pos rfl, if_pos (List.getElem?_eq_some_iff.mp hg).1, hs]
        exact .some ⟨hsame.groupId, hsame.members, hsame.ready, hsame.readyCount⟩
      · rw [if_neg hj]
        exact h.objects j
    · exact fun j hj => h.named j (Dict.mem_keys_erase.mp hj).2

theorem cancel (id : I) : Alike t strictOrder ((FromScratch.cancel t id).run q)
    ((Tito.cancel (.hashable id)).run w) := by
  have hget : q.groups.get? id = w.groups.get? id := by rw [h.groups]
  simp only [FromScratch.cancel, Tito.cancel, EStateM.run_bind, EStateM.run_get, hget, find_run,
    Value.toOption, Option.bind_some]
  cases hid : w.groups.get? id with
  | none => exact .refused (.groupNotQueued id) h
  | some k =>
    obtain ⟨g, hg, _⟩ := h.consistent.bearing id k hid
    obtain ⟨q', hr, h'⟩ := h.remove hid hg
    simp only [EStateM.run_bind, hr, remove_run h.consistent.toRegistered hid hg]
    exact .ok _ h'

theorem clear : Alike t strictOrder (FromScratch.clear.run q) (Tito.clear.run w) := by
  have hrun : FromScratch.clear.run q = .ok w.groups.values
      { q with groups := Dict.empty, memberIndex := Dict.empty } := by
    rw [← h.groups]
    rfl
  rw [hrun, clear_run h.consistent]
  refine .ok _ ⟨cleared_consistent h.consistent, h.strict, h.policy, rfl, rfl, fun k => ?_,
    fun _ hid => nomatch hid⟩
  rw [World.cleared, List.getElem?_map]
  have hrel := h.objects k
  generalize q.objects[k]? = o, w.objects[k]? = o' at hrel
  cases hrel with
  | none => exact .none
  | some hsame => exact .some ⟨hsame.groupId, hsame.members, hsame.ready, hsame.readyCount⟩

theorem showGroup (o : Option Handle) : Alike t strictOrder
    ((FromScratch.showGroup o).run q) ((Tito.showGroup o).run w) := by
  have hlook := h.look
  cases o with
  | none => exact .ok _ h
  | some k =>
    simp only [FromScratch.showGroup, Tito.showGroup, EStateM.run_bind, EStateM.run_get, hlook,
      Option.bind_some]
    exact .ok _ h

theorem showGroups (hs : List Handle) : Alike t strictOrder
    ((FromScratch.showGroups hs).run q) ((Tito.showGroups hs).run w) := by
  have hlook := h.look
  simp only [FromScratch.showGroups, Tito.showGroups, EStateM.run_bind, EStateM.run_get, hlook]
  exact .ok _ h

end Mirrors

def Call.op : Call I M → Op I M
  | .admitGroup groupId members => .admitGroup (.hashable groupId) (.iterable (members.map .hashable))
  | .markReady member => .markReady (.hashable member)
  | .markGroupReady groupId => .markGroupReady (.hashable groupId)
  | .groupOf member => .groupOf (.hashable member)
  | .cancel groupId => .cancel (.hashable groupId)
  | .clear => .clear
  | .peek => .peek
  | .release => .release
  | .releaseAll => .releaseAll
  | .groups => .groups
  | .len => .len
  | .contains member => .contains (.hashable member)
  | .groupMarkReady group member => .groupMarkReady group (.hashable member)

/-- The call admits no group under the id `None`. -/
def Call.Named (t : Texts I M) : Call I M → Prop
  | .admitGroup groupId _ => t.isNone groupId = false
  | _ => True

def Call.seeks : Call I M → Bool
  | .peek => true
  | .release => true
  | .releaseAll => true
  | _ => false

section

variable {t : Texts I M} {strictOrder : Bool} {q : Queue I M} {w : World I M}

theorem Mirrors.perform (h : Mirrors t strictOrder q w) {call : Call I M}
    (hnamed : call.Named t) (hseeks : call.seeks = false) :
    Alike t strictOrder ((perform t call).run q) ((Tito.perform call.op).run w) := by
  cases call with
  | admitGroup groupId members =>
    exact Alike.bind (h.admitGroup hnamed members) fun k _ _ h' => h'.showGroup (some k)
  | markReady member => exact Alike.bind (h.markReady member) fun b _ _ h' => .pure h' (Answer.bool b)
  | markGroupReady groupId =>
    exact Alike.bind (h.markGroupReady groupId) fun b _ _ h' => .pure h' (Answer.bool b)
  | groupOf member => exact Alike.bind (h.groupOf member) fun o _ _ h' => h'.showGroup o
  | cancel groupId => exact Alike.bind (h.cancel groupId) fun k _ _ h' => h'.showGroup (some k)
  | clear => exact Alike.bind h.clear fun hs _ _ h' => h'.showGroups hs
  | groups =>
    have hvalues : q.groups.values = w.groups.values := by rw [h.groups]
    simp only [FromScratch.perform, Tito.perform, waitingGroups, EStateM.run_bind, EStateM.run_get,
      Call.op, hvalues]
    exact h.showGroups w.groups.values
  | len =>
    have hlength : q.groups.length = w.groups.length := by rw [h.groups]
    simp only [FromScratch.perform, Tito.perform, Tito.len, EStateM.run_bind, EStateM.run_get, Call.op,
      hlength]
    exact .ok _ h
  | contains member =>
    have hindex : q.memberIndex.contains member = w.memberIndex.contains member := by
      rw [h.memberIndex]
    simp only [FromScratch.perform, Tito.perform, FromScratch.contains, Tito.contains, EStateM.run_bind,
      EStateM.run_get, Call.op, hindex]
    exact .ok _ h
  | groupMarkReady group member =>
    exact Alike.bind (h.groupMarkReady group member) fun b _ _ h' => .pure h' (Answer.bool b)
  | peek => cases hseeks
  | release => cases hseeks
  | releaseAll => cases hseeks

/-- The line that the queue of the example stands for, under its own policy. -/
def line (strictOrder : Bool) (w : World I M) : PlainQueue I M :=
  { w.plain with strictOrder := strictOrder }

theorem Mirrors.peek (h : Mirrors t strictOrder q w) :
    FromScratch.peek.run q = .ok ((line strictOrder w).peek.map Entry.handle) q := by
  have hscan : ∀ hs : List Handle, (∀ k ∈ hs, k ∈ w.groups.values) →
      (peekLoop hs).run q = .ok ((if strictOrder then
        (hs.filterMap w.look).head?.filter Entry.ready
        else (hs.filterMap w.look).find? Entry.ready).map Entry.handle) q := by
    intro hs hin
    induction hs with
    | nil => cases strictOrder <;> rfl
    | cons k hs ih =>
      obtain ⟨_, g, _, hg, _⟩ := h.consistent.waiting (hin k List.mem_cons_self)
      obtain ⟨s, hs', hsame⟩ := h.object hg
      have hderef : (FromScratch.deref k).run q = .ok s q := by simp [FromScratch.deref, hs']
      have hlook : w.look k = some (g.entry k) := World.look_eq_some.mpr ⟨g, hg, rfl⟩
      have hready : (g.entry k).ready = s.isReady := by rw [g.ready_entry, hsame.isReady]
      have hrest := ih fun j hj => hin j (List.mem_cons_of_mem k hj)
      rw [List.filterMap_cons_some hlook, List.head?_cons, peekLoop, EStateM.run_bind, hderef]
      dsimp only
      cases hr : s.isReady with
      | true =>
        have he : (g.entry k).handle = k := rfl
        cases strictOrder <;> simp [hready, hr, Option.filter, he]
      | false =>
        simp only [Bool.false_eq_true, if_false, EStateM.run_bind, EStateM.run_get, h.policy]
        cases strictOrder with
        | true => simp [hready, hr, Option.filter]
        | false => simpa [hready, hr] using hrest
  have hpeek := hscan w.groups.values fun _ hk => hk
  rw [← h.groups] at hpeek
  rw [PlainQueue.peek]
  have hwaiting : (line strictOrder w).waiting = q.groups.values.filterMap w.look := by
    rw [h.groups]
    rfl
  rw [hwaiting]
  exact hpeek

theorem Mirrors.release_of_some (h : Mirrors t strictOrder q w) {e : Entry I M}
    (he : (line strictOrder w).peek = some e) :
    ∃ q' w', FromScratch.release.run q = .ok (some e.handle) q' ∧
      Mirrors t strictOrder q' w' ∧ line strictOrder w' = (line strictOrder w).remove e ∧
      w'.look = w.look := by
  have hmem : e ∈ w.plain.waiting := (PlainQueue.peek_mem he).1
  obtain ⟨hh, hl⟩ := World.mem_waiting.mp hmem
  obtain ⟨id, g, hid, hg, _⟩ := h.consistent.waiting hh
  obtain ⟨q', hr, h'⟩ := h.remove hid hg
  have hentry : g.entry e.handle = e := Option.some.inj
    ((World.look_eq_some.mpr ⟨g, hg, rfl⟩).symm.trans hl)
  refine ⟨q', w.removed id e.handle g, ?_, h', ?_, funext fun k => look_removed hg k⟩
  · rw [FromScratch.release, EStateM.run_bind, h.peek, he]
    simp only [Option.map_some, EStateM.run_bind, hr, EStateM.run_pure]
  · have hplain := plain_removed h.consistent.toRegistered hid hg
    rw [hentry] at hplain
    rw [line, hplain]
    rfl

theorem Mirrors.release_of_none (h : Mirrors t strictOrder q w)
    (hn : (line strictOrder w).peek = none) : FromScratch.release.run q = .ok none q := by
  rw [FromScratch.release, EStateM.run_bind, h.peek, hn]
  rfl

/-- The rounds of `release_all` do not run out: each takes a group out of the line. -/
theorem Mirrors.releaseAllLoop (n : Nat) (h : Mirrors t strictOrder q w)
    (hn : (line strictOrder w).waiting.length ≤ n) (released : List Handle) :
    ∃ hs q' w', (FromScratch.releaseAllLoop (n + 1) released).run q = .ok (released ++ hs) q' ∧
      Mirrors t strictOrder q' w' ∧ w'.look = w.look ∧
      (hs.filterMap w.look, line strictOrder w') = (line strictOrder w).releaseUpTo n := by
  induction n generalizing q w released with
  | zero =>
    have hnone : (line strictOrder w).peek = none := by
      refine Option.eq_none_iff_forall_ne_some.mpr fun e he => ?_
      have hpos := List.length_pos_of_mem (PlainQueue.peek_mem he).1
      omega
    refine ⟨[], q, w, ?_, h, rfl, rfl⟩
    rw [FromScratch.releaseAllLoop, EStateM.run_bind, h.release_of_none hnone, List.append_nil]
    rfl
  | succ n ih =>
    rw [PlainQueue.releaseUpTo]
    cases hp : (line strictOrder w).peek with
    | none =>
      refine ⟨[], q, w, ?_, h, rfl, rfl⟩
      rw [FromScratch.releaseAllLoop, EStateM.run_bind, h.release_of_none hp, List.append_nil]
      rfl
    | some e =>
      obtain ⟨q₁, w₁, hr, h₁, hline, hlook⟩ := h.release_of_some hp
      have hlt := PlainQueue.length_remove_lt (PlainQueue.peek_mem hp).1
      rw [← hline] at hlt
      obtain ⟨hs, q₂, w₂, hr₂, h₂, hlook₂, hu⟩ := ih h₁ (by omega) (released ++ [e.handle])
      have he : w.look e.handle = some e := (World.mem_waiting.mp (PlainQueue.peek_mem hp).1).2
      refine ⟨e.handle :: hs, q₂, w₂, ?_, h₂, hlook₂.trans hlook, ?_⟩
      · rw [FromScratch.releaseAllLoop, EStateM.run_bind, hr]
        simpa using hr₂
      · rw [hlook, hline] at hu
        rw [List.filterMap_cons_some he]
        dsimp only
        rw [← hu]

end

def Refines (t : Texts I M) (strictOrder : Bool) (q : Queue I M) (p : PlainQueue I M) : Prop :=
  ∃ w, Mirrors t strictOrder q w ∧ p = line strictOrder w

theorem step_line {w : World I M} (hw : Consistent w) (hs : w.strictOrder = true)
    (strictOrder : Bool) {call : Call I M} (hseeks : call.seeks = false) :
    (line strictOrder w).step call.op = ((w.plain.step call.op).1,
      { (w.plain.step call.op).2 with strictOrder := strictOrder }) := by
  have hplain : w.plain.strictOrder = true := hs
  cases strictOrder with
  | true =>
    have hline : line true w = w.plain := by rw [line, ← hplain]
    have hpolicy : (w.plain.step call.op).2.strictOrder = true :=
      (PlainQueue.step_conserved hw.plain_valid call.op).policy.trans hplain
    rw [hline, ← hpolicy]
  | false =>
    have hrelease : call.op ≠ .release ∧ call.op ≠ .releaseAll ∧ call.op ≠ .peek := by
      cases call <;> simp [Call.op] <;> cases hseeks
    obtain ⟨hstate, hanswer⟩ := PlainQueue.step_relax hplain call.op
      (fun hop => absurd hop hrelease.1) fun hop => absurd hop hrelease.2.1
    exact Prod.ext (hanswer hrelease.2.2) hstate

theorem step_of_ok {t : Texts I M} {q q' : Queue I M} {call : Call I M} {a : Answer I M}
    (h : (perform t call).run q = .ok a q') : step t q call = (.ok a, q') := by
  rw [step, h]

/-- Every call of the example is the call of the line. -/
theorem step_agrees {t : Texts I M} {strictOrder : Bool} {q : Queue I M} {w : World I M}
    (h : Mirrors t strictOrder q w) {call : Call I M} (hnamed : call.Named t) :
    Agrees t (step t q call).1 ((line strictOrder w).step call.op).1 ∧
      Refines t strictOrder (step t q call).2 ((line strictOrder w).step call.op).2 := by
  have hshow : ∀ (o : Option Handle) (q : Queue I M),
      (showGroup o).run q = .ok ((o.bind q.look).elim .none .group) q := fun _ _ => rfl
  have hpeeked : ((line strictOrder w).peek.map Entry.handle).bind q.look =
      (line strictOrder w).peek := by
    cases hp : (line strictOrder w).peek with
    | none => rfl
    | some e =>
      rw [h.look]
      exact (World.mem_waiting.mp (PlainQueue.peek_mem hp).1).2
  cases hseeks : call.seeks with
  | false =>
    have hstep := step_plain h.consistent call.op
    have halike := h.perform hnamed hseeks
    rw [step_line h.consistent h.strict strictOrder hseeks, ← hstep, step, Tito.step, attempt]
    generalize (perform t call).run q = r, (Tito.perform call.op).run w = r' at halike
    cases halike with
    | ok a h' => exact ⟨.ok a, _, h', rfl⟩
    | tito he ht h' => exact ⟨.tito he ht, _, h', rfl⟩
    | untold he ht h' => exact ⟨.untold he ht, _, h', rfl⟩
    | noObject h' => exact ⟨.noObject, _, h', rfl⟩
  | true =>
    cases call with
    | peek =>
      have hr : (perform t Call.peek).run q =
          .ok ((line strictOrder w).peek.elim .none .group) q := by
        rw [perform, EStateM.run_bind, h.peek]
        dsimp only
        rw [hshow, hpeeked]
      rw [step_of_ok hr]
      exact ⟨.ok _, w, h, rfl⟩
    | release =>
      cases hp : (line strictOrder w).peek with
      | none =>
        have hr : (perform t Call.release).run q = .ok .none q := by
          rw [perform, EStateM.run_bind, h.release_of_none hp]
          rfl
        rw [step_of_ok hr, Call.op, PlainQueue.step, hp]
        exact ⟨.ok _, w, h, rfl⟩
      | some e =>
        obtain ⟨q', w', hrelease, h', hline, hlook⟩ := h.release_of_some hp
        have hr : (perform t Call.release).run q = .ok (.group e) q' := by
          rw [perform, EStateM.run_bind, hrelease]
          dsimp only
          rw [hshow, h'.look, hlook, ← h.look]
          rw [hp] at hpeeked
          rw [show (some e.handle).bind q.look = some e from hpeeked]
          rfl
        rw [step_of_ok hr, Call.op, PlainQueue.step, hp]
        exact ⟨.ok _, w', h', hline.symm⟩
    | releaseAll =>
      have hwaiting : (line strictOrder w).waiting.length = q.groups.length := by
        rw [h.groups]
        exact h.consistent.length_waiting
      obtain ⟨hs, q', w', hloop, h', hlook, hu⟩ :=
        h.releaseAllLoop _ (Nat.le_of_eq hwaiting) []
      have hr : (perform t Call.releaseAll).run q = .ok (.groups (hs.filterMap w.look)) q' := by
        rw [← hlook, ← h'.look]
        rw [perform, EStateM.run_bind, releaseAll, EStateM.run_bind, EStateM.run_get]
        dsimp only
        rw [hloop]
        rfl
      rw [step_of_ok hr, Call.op, PlainQueue.step, hwaiting, ← hu]
      exact ⟨.ok _, w', h', rfl⟩
    | _ => cases hseeks

theorem step_translation (t : Texts I M) (strictOrder : Bool) :
    Translation (step (M := M) t) PlainQueue.step Call.op (Agrees t) (Call.Named t)
      (Refines t strictOrder) where
  answer := by
    rintro q _ call ⟨w, h, rfl⟩ hnamed
    exact (step_agrees h hnamed).1
  next := by
    rintro q _ call ⟨w, h, rfl⟩ hnamed
    exact (step_agrees h hnamed).2

/-- The queue that is written from scratch, with scans in place of the indexes and with no counter,
heap or callback, answers every run of calls as the package does, the same groups by the same
calls and errors of the same kind about the same things, as long as no id is `None`. Where the text
of an error cannot be formatted, a `TypeError` leaves in its place, and as little changes. -/
theorem from_scratch_agrees (t : Texts I M) (strictOrder : Bool) (calls : List (Call I M))
    (hnamed : ∀ call ∈ calls, call.Named t) :
    List.Forall₂ (Agrees t) (answers (step t) (Queue.init strictOrder) calls)
      (answers Tito.step (World.init strictOrder) (calls.map Call.op)) := by
  have hinit : Refines t strictOrder (Queue.init strictOrder : Queue I M)
      (PlainQueue.init strictOrder) := ⟨World.init true, mirrors_init t strictOrder, rfl⟩
  rw [step_refines.answers (init_refines strictOrder)]
  exact (step_translation t strictOrder).answers hinit hnamed

/-- A run with a refused admission and a release past an incomplete group. -/
theorem from_scratch_agrees_relaxed :
    let calls : List (Call (Option String) String) :=
      [.admitGroup (some "a") ["x", "y"], .admitGroup (some "b") ["y"],
        .admitGroup (some "b") ["z"], .markReady "z", .release, .releaseAll]
    List.Forall₂ (Agrees .str) (answers (step .str) (Queue.init false) calls)
      (answers Tito.step (World.init false) (calls.map Call.op)) :=
  from_scratch_agrees .str false
    [.admitGroup (some "a") ["x", "y"], .admitGroup (some "b") ["y"],
      .admitGroup (some "b") ["z"], .markReady "z", .release, .releaseAll]
    (by simp [Call.Named, Texts.str])

/-- A group with the id `None` is out of reach for those who ask by a member. -/
example : answers (step .str) (Queue.init true)
    [.admitGroup none ["x"], .groupOf "x", .contains "x"] =
      [.ok (.group ⟨0, .hashable none, [("x", false)]⟩), .ok .none, .ok (.bool true)] := by decide

/-- Members that are no `str` cannot be named together in an error. -/
example : answers (step { Texts.str with word := fun _ => none }) (Queue.init true)
    [.admitGroup (some "a") ["x"], .admitGroup (some "b") ["x"]] =
      [.ok (.group ⟨0, .hashable (some "a"), [("x", false)]⟩), .error .typeError] := by decide

end Tito.FromScratch
