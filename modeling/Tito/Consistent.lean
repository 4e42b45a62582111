import Tito.Plain

namespace Tito

open Lib Lib.Heapq

variable {I M : Type} [DecidableEq I] [DecidableEq M]

/-- The group map, the member index and the group objects agree, and the map is in order of
arrival. A group's handle is its sequence number: neither is given twice. -/
structure Registered (w : World I M) : Prop where
  numbered : ∀ (h : Handle) (g : Group I M), w.objects[h]? = some g → g.sequence = h
  counted : w.objects.length = w.sequence
  bearing : ∀ id h, w.groups.get? id = some h →
    ∃ g, w.objects[h]? = some g ∧ g.groupId = .hashable id
  ordered : w.groups.values.Pairwise (· < ·)
  indexed : ∀ m id, w.memberIndex.get? m = some id ↔
    ∃ h g, w.groups.get? id = some h ∧ w.objects[h]? = some g ∧ m ∈ g.members

/-- The relaxed policy's ready index: live entries are never missing from the heap, and what
is stale there belongs to groups that have left. A strict queue keeps none of it. -/
structure ReadyIndexed (w : World I M) : Prop where
  callback : w.onReadyCallback = if w.strictOrder then none else some .noteReady
  carried : ∀ (h : Handle) (g : Group I M), w.objects[h]? = some g →
    g.onReady = if h ∈ w.groups.values then w.onReadyCallback else none
  readied : ∀ s h, w.readyGroups.get? s = some h ↔
    w.strictOrder = false ∧ s = h ∧ h ∈ w.groups.values ∧
      ∃ g, w.objects[h]? = some g ∧ g.isReady = true
  heap : IsHeap w.readyHeap
  heap_nodup : w.readyHeap.Nodup
  heap_holds : ∀ s ∈ w.readyGroups.keys, s ∈ w.readyHeap
  heap_stale : ∀ s ∈ w.readyHeap,
    s ∈ w.readyGroups.keys ∨ (s < w.sequence ∧ s ∉ w.groups.values)
  heap_strict : w.strictOrder = true → w.readyHeap = []

structure Consistent (w : World I M) : Prop extends Registered w, ReadyIndexed w

theorem init_consistent (strictOrder : Bool) :
    Consistent (World.init strictOrder : World I M) where
  numbered := by simp [World.init]
  counted := rfl
  bearing := by simp [World.init]
  ordered := List.Pairwise.nil
  indexed := by simp [World.init]
  callback := rfl
  carried := by simp [World.init]
  readied := by simp [World.init]
  heap := isHeap_nil
  heap_nodup := List.nodup_nil
  heap_holds := by simp [World.init]
  heap_stale := by simp [World.init]
  heap_strict := fun _ => rfl

namespace Registered

variable {w : World I M} (hw : Registered w)

include hw

theorem values_nodup : w.groups.values.Nodup := hw.ordered.imp fun h => Nat.ne_of_lt h

theorem waiting {h : Handle} (hh : h ∈ w.groups.values) :
    ∃ id g, w.groups.get? id = some h ∧ w.objects[h]? = some g ∧ g.groupId = .hashable id := by
  obtain ⟨id, hid⟩ := Dict.mem_values_iff.mp hh
  obtain ⟨g, hg, hgid⟩ := hw.bearing id h hid
  exact ⟨id, g, hid, hg, hgid⟩

theorem lt_sequence {h : Handle} (hh : h ∈ w.groups.values) : h < w.sequence := by
  obtain ⟨_, _, _, hg, _⟩ := hw.waiting hh
  exact hw.counted ▸ (List.getElem?_eq_some_iff.mp hg).1

theorem id_unique {id id' : I} {h : Handle} (hid : w.groups.get? id = some h)
    (hid' : w.groups.get? id' = some h) : id = id' := by
  obtain ⟨g, hg, hgid⟩ := hw.bearing id h hid
  obtain ⟨g', hg', hgid'⟩ := hw.bearing id' h hid'
  obtain rfl := Option.some.inj (hg.symm.trans hg')
  exact Value.hashable.inj (hgid.symm.trans hgid')

theorem member_unique {h h' : Handle} {g g' : Group I M} {m : M} (hh : h ∈ w.groups.values)
    (hh' : h' ∈ w.groups.values) (hg : w.objects[h]? = some g) (hg' : w.objects[h']? = some g')
    (hm : m ∈ g.members) (hm' : m ∈ g'.members) : h = h' := by
  obtain ⟨id, hid⟩ := Dict.mem_values_iff.mp hh
  obtain ⟨id', hid'⟩ := Dict.mem_values_iff.mp hh'
  have e := (hw.indexed m id).mpr ⟨h, g, hid, hg, hm⟩
  have e' := (hw.indexed m id').mpr ⟨h', g', hid', hg', hm'⟩
  obtain rfl := Option.some.inj (e.symm.trans e')
  exact Option.some.inj (hid.symm.trans hid')

theorem member_mem_keys {id : I} {h : Handle} {g : Group I M} (hid : w.groups.get? id = some h)
    (hg : w.objects[h]? = some g) : ∀ m ∈ g.members, m ∈ w.memberIndex.keys :=
  fun m hm => Dict.mem_keys_iff.mpr ⟨id, (hw.indexed m id).mpr ⟨h, g, hid, hg, hm⟩⟩

end Registered

end Tito
