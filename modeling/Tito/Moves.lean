import Tito.Operations
import Mathlib.Logic.Relation

namespace Tito

open Lib Lib.Heapq

variable {I M : Type} [DecidableEq I] [DecidableEq M]

/-- The queue after a commit that passed its checks. -/
def World.admitted (w : World I M) (id : I) (g : Group I M) : World I M :=
  { w with
    groups := w.groups.set id w.objects.length
    memberIndex := w.memberIndex.setAll g.members id
    sequence := w.sequence + 1
    objects := w.objects ++ [{ g with sequence := w.sequence, onReady := w.onReadyCallback }]
    trace := w.trace ++ .setGroup id w.objects.length :: g.members.map (.setMember · id) }

/-- The queue after `Group.mark_ready` raised the flag of `m`, before any callback. -/
def World.flagged (w : World I M) (h : Handle) (g : Group I M) (m : M)
    (hm : g.ready.get? m = some false) : World I M :=
  { w with objects := w.objects.set h (g.flag m hm) }

/-- The queue after `_note_ready` entered the group at `h`. -/
def World.noted (w : World I M) (h : Handle) : World I M :=
  { w with
    readyGroups := w.readyGroups.set h h
    readyHeap := heappush w.readyHeap h
    trace := w.trace ++ [.setReady h h, .push h] }

def World.marked (w : World I M) (h : Handle) (g : Group I M) (m : M)
    (hm : g.ready.get? m = some false) : World I M :=
  if (g.flag m hm).isReady = true ∧ g.onReady = some .noteReady then (w.flagged h g m hm).noted h
  else w.flagged h g m hm

/-- A group that nobody is told about any more. -/
def Group.detached (g : Group I M) : Group I M := { g with onReady := none }

/-- The queue after `_remove` forgot the group `g` at `h`, before any compaction. -/
def World.withdrawn (w : World I M) (id : I) (h : Handle) (g : Group I M) : World I M :=
  { w with
    groups := w.groups.erase id
    memberIndex := w.memberIndex.eraseAll g.members
    readyGroups := w.readyGroups.erase h
    objects := w.objects.set h g.detached
    trace := w.trace ++ .delGroup id :: g.members.map .delMember ++
      if h ∈ w.readyGroups.keys then [.popReady h] else [] }

def World.compacted (w : World I M) : World I M :=
  if w.readyHeap.length ≤ 2 * w.readyGroups.length + 8 then w
  else { w with readyHeap := heapify w.readyGroups.keys }.wrote (.rebuild w.readyGroups.length)

def World.removed (w : World I M) (id : I) (h : Handle) (g : Group I M) : World I M :=
  if h ∈ w.readyGroups.keys then (w.withdrawn id h g).compacted else w.withdrawn id h g

/-- The queue after `clear`. Every group is now detached: those that had left were already. -/
def World.cleared (w : World I M) : World I M :=
  { w with
    groups := Dict.empty
    memberIndex := Dict.empty
    readyGroups := Dict.empty
    readyHeap := []
    objects := w.objects.map Group.detached
    trace := w.trace ++ [.clearGroups, .clearMembers, .clearReady, .clearHeap] }

/-- One round of the loop of a relaxed `peek`. -/
def World.popped (w : World I M) (top : Nat) : World I M :=
  { w with readyHeap := heappop w.readyHeap }.wrote (.popStale top)

/-- What a successful `admit` does to the queue. -/
inductive Arrival : World I M → World I M → Prop
  | commit {w : World I M} {id : I} {g : Group I M} (hgid : g.groupId = .hashable id)
      (hready : g.isReady = false) (hid : id ∉ w.groups.keys)
      (hms : ∀ m ∈ g.members, m ∉ w.memberIndex.keys) : Arrival w (w.admitted id g)

/-- What any other call does to the queue, taken apart. -/
inductive Move : World I M → World I M → Prop
  | mark {w : World I M} {h : Handle} {g : Group I M} {m : M} (hg : w.objects[h]? = some g)
      (hm : g.ready.get? m = some false) : Move w (w.marked h g m hm)
  | remove {w : World I M} {id : I} {h : Handle} {g : Group I M}
      (hid : w.groups.get? id = some h) (hg : w.objects[h]? = some g) : Move w (w.removed id h g)
  | clear {w : World I M} : Move w w.cleared
  | pop {w : World I M} {top : Nat} {rest : List Nat} (hh : w.readyHeap = top :: rest)
      (hs : w.readyGroups.get? top = none) : Move w (w.popped top)

abbrev Moves : World I M → World I M → Prop := Relation.ReflTransGen Move

def Evolves : Op I M → World I M → World I M → Prop
  | .admitGroup _ _, w, w' => w' = w ∨ Arrival w w'
  | _, w, w' => Moves w w'

theorem Evolves.refl (op : Op I M) (w : World I M) : Evolves op w w := by
  cases op with
  | admitGroup => exact Or.inl rfl
  | _ => exact Relation.ReflTransGen.refl

end Tito
