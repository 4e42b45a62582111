import Tito.Group
import Tito.Lib.Effects
import Tito.Lib.LazyHeap
import Mathlib.Data.Nat.Basic

namespace Tito

open Lib Lib.Heapq Lib.Effects

/-- The identity of a `Group` object: its place among the groups ever admitted. -/
abbrev Handle := Nat

/-- One write to an index of the queue. -/
inductive Write (I M : Type) where
  | setGroup (groupId : I) (group : Handle)
  | delGroup (groupId : I)
  | clearGroups
  | setMember (member : M) (groupId : I)
  | delMember (member : M)
  | clearMembers
  | setReady (sequence : Nat) (group : Handle)
  | popReady (sequence : Nat)
  | clearReady
  | push (sequence : Nat)
  | popStale (sequence : Nat)
  | rebuild (entries : Nat)
  | clearHeap
  deriving DecidableEq

/-- The fields of one queue, with the group objects it has admitted. `trace` is a history of
the index writes made so far; nothing reads it. -/
@[ext]
structure World (I M : Type) where
  strictOrder : Bool
  groups : Dict I Handle
  memberIndex : Dict M I
  sequence : Nat
  readyHeap : List Nat
  readyGroups : Dict Nat Handle
  onReadyCallback : Option ReadyCallback
  objects : List (Group I M)
  trace : List (Write I M)

variable {I M : Type}

/-- `TitoQueue.__init__`. -/
def World.init (strictOrder : Bool) : World I M where
  strictOrder := strictOrder
  groups := Dict.empty
  memberIndex := Dict.empty
  sequence := 0
  readyHeap := []
  readyGroups := Dict.empty
  onReadyCallback := if strictOrder then none else some .noteReady
  objects := []
  trace := []

def World.wrote (w : World I M) (e : Write I M) : World I M := { w with trace := w.trace ++ [e] }

/-- A call on the queue: it returns or raises, and what it wrote stays written. -/
abbrev Py (I M : Type) := EStateM (PyError I M) (World I M)

def deref (h : Handle) : Py I M (Group I M) := do
  match (← get).objects[h]? with
  | some g => return g
  | none => throw .noObject

theorem deref_run {w : World I M} {h : Handle} {g : Group I M} (hg : w.objects[h]? = some g) :
    (deref h).run w = .ok g w := by simp [deref, hg]

theorem deref_run_of_none {w : World I M} {h : Handle} (hg : w.objects[h]? = none) :
    (deref h).run w = .error .noObject w := by simp [deref, hg]

def store (h : Handle) (g : Group I M) : Py I M Unit :=
  modify fun w => { w with objects := w.objects.set h g }

@[simp] theorem store_run (h : Handle) (g : Group I M) (w : World I M) :
    (store h g).run w = .ok () { w with objects := w.objects.set h g } := rfl

def allocate (g : Group I M) : Py I M Handle :=
  modifyGet fun w => (w.objects.length, { w with objects := w.objects ++ [g] })

def setOnReady (h : Handle) (callback : Option ReadyCallback) : Py I M Unit := do
  let g ← deref h
  store h { g with onReady := callback }

theorem setOnReady_run {w : World I M} {h : Handle} {g : Group I M} (hg : w.objects[h]? = some g)
    (c : Option ReadyCallback) : (setOnReady h c).run w =
      .ok () { w with objects := w.objects.set h { g with onReady := c } } := by
  simp [setOnReady, deref_run hg]

/-- `self._ready_groups.pop(sequence, None) is not None`. -/
def popReady (sequence : Nat) : Py I M Bool := do
  if (← get).readyGroups.contains sequence then
    modify fun w => { w with readyGroups := w.readyGroups.erase sequence }.wrote (.popReady sequence)
    return true
  else return false

/-- `_note_ready`. -/
def noteReady (h : Handle) : Py I M Unit := do
  let sequence := (← deref h).sequence
  if (← get).readyGroups.contains sequence then return
  else
    modify fun w =>
      { w with readyGroups := w.readyGroups.set sequence h }.wrote (.setReady sequence h)
    modify fun w => { w with readyHeap := heappush w.readyHeap sequence }.wrote (.push sequence)

/-- `_compact_ready_heap`. -/
def compactReadyHeap : Py I M Unit := do
  let w ← get
  if w.readyHeap.length ≤ 2 * w.readyGroups.length + 8 then return
  else
    modify fun w =>
      { w with readyHeap := heapify w.readyGroups.keys }.wrote (.rebuild w.readyGroups.length)

/-- The loop of a relaxed `peek`. -/
def peekLoop (w : World I M) : Option Handle × World I M :=
  match _h : w.readyHeap with
  | [] => (none, w)
  | top :: _ =>
    match w.readyGroups.get? top with
    | some group => (some group, w)
    | none => peekLoop ({ w with readyHeap := heappop w.readyHeap }.wrote (.popStale top))
termination_by w.readyHeap.length
decreasing_by
  simp only [World.wrote, _h, LazyHeap.length_heappop_cons, List.length_cons]
  omega

theorem peekLoop_nil {w : World I M} (h : w.readyHeap = []) : peekLoop w = (none, w) := by
  rw [peekLoop]
  split
  · rfl
  · rename_i h'
    rw [h] at h'
    cases h'

theorem peekLoop_live {w : World I M} {top : Nat} {t : List Nat} {g : Handle}
    (h : w.readyHeap = top :: t) (hg : w.readyGroups.get? top = some g) :
    peekLoop w = (some g, w) := by
  rw [peekLoop]
  split
  · rename_i h'
    rw [h] at h'
    cases h'
  · rename_i h'
    rw [h] at h'
    cases h'
    rw [hg]

theorem peekLoop_stale {w : World I M} {top : Nat} {t : List Nat}
    (h : w.readyHeap = top :: t) (hg : w.readyGroups.get? top = none) :
    peekLoop w = peekLoop ({ w with readyHeap := heappop w.readyHeap }.wrote (.popStale top)) := by
  rw [peekLoop]
  split
  · rename_i h'
    rw [h] at h'
    cases h'
  · rename_i h'
    rw [h] at h'
    cases h'
    rw [hg]

/-- `__len__`. -/
def len : Py I M Nat := return (← get).groups.length

/-- `groups`. -/
def waitingGroups : Py I M (List Handle) := return (← get).groups.values

/-- `peek`. -/
def peek : Py I M (Option Handle) := do
  let w ← get
  if w.strictOrder then
    match w.groups.values.head? with
    | none => return none
    | some head =>
      if (← deref head).isReady then return some head else return none
  else modifyGet peekLoop

section

variable {R : World I M → World I M → Prop} (hR : Frame R)

include hR

theorem keeps_deref (h : Handle) : Keeps R (deref h) := by
  refine hR.bind hR.get fun w => ?_
  split
  · exact hR.pure _
  · exact hR.throw _

theorem keeps_setOnReady (hobj : ∀ w os, R w { w with objects := os }) (h : Handle)
    (c : Option ReadyCallback) : Keeps R (setOnReady h c) :=
  hR.bind (keeps_deref hR h) fun _ => Frame.modify fun w => hobj w _

theorem keeps_popReady (hpop : ∀ w s, s ∈ w.readyGroups.keys →
      R w ({ w with readyGroups := w.readyGroups.erase s }.wrote (.popReady s))) (s : Nat) :
    Keeps R (popReady s) := by
  intro w
  unfold after
  by_cases hs : s ∈ w.readyGroups.keys
  · simpa [popReady, hs] using hpop w s hs
  · simpa [popReady, hs] using hR.refl w

theorem keeps_compactReadyHeap
    (hreb : ∀ w, 2 * w.readyGroups.length + 8 < w.readyHeap.length →
      R w ({ w with readyHeap := heapify w.readyGroups.keys }.wrote
        (.rebuild w.readyGroups.length))) :
    Keeps R compactReadyHeap := by
  intro w
  unfold after
  by_cases hl : w.readyHeap.length ≤ 2 * w.readyGroups.length + 8
  · simpa [compactReadyHeap, hl] using hR.refl w
  · simpa [compactReadyHeap, hl] using hreb w (by omega)

theorem keeps_peekLoop (hpop : ∀ w top t, w.readyHeap = top :: t →
      w.readyGroups.get? top = none →
      R w ({ w with readyHeap := heappop w.readyHeap }.wrote (.popStale top)))
    (w : World I M) : R w (peekLoop w).2 := by
  induction w using peekLoop.induct with
  | case1 w hw =>
    rw [peekLoop_nil hw]
    exact hR.refl w
  | case2 w top t hw g hg =>
    rw [peekLoop_live hw hg]
    exact hR.refl w
  | case3 w top t hw hg ih =>
    rw [peekLoop_stale hw hg]
    exact hR.trans (hpop w top t hw hg) ih

theorem keeps_peek (hpop : ∀ w top t, w.readyHeap = top :: t →
      w.readyGroups.get? top = none →
      R w ({ w with readyHeap := heappop w.readyHeap }.wrote (.popStale top))) :
    Keeps R (peek (I := I) (M := M)) := by
  refine hR.bind hR.get fun w => ?_
  split
  · split
    · exact hR.pure none
    · refine hR.bind (keeps_deref hR _) fun g => ?_
      split
      · exact hR.pure _
      · exact hR.pure none
  · exact Frame.modifyGet (keeps_peekLoop hR hpop)

end

end Tito
