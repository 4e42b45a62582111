import Tito.Peeking
import Tito.Printing
import Tito.Lib.Monitor

namespace Tito.Locked

open Lib Lib.Heapq Lib.Effects Lib.Monitor Lib.Monitor.Prog

variable {I M : Type}

/-- A method as it is written: the accesses it makes, and the `with self._lock:` around them. -/
abbrev Method (I M α : Type) := Prog (PyError I M) (World I M) α

def read {α : Type} (field : World I M → α) : Method I M α := access (field <$> get)

@[simp] theorem serial_read {α : Type} (field : World I M → α) :
    serial (read field) = field <$> get := serial_access _

theorem inner_read {α : Type} (field : World I M → α) : Code.Inner (read field) := inner_access _

def isReady (h : Handle) : Method I M Bool := locked do
  return (← access (deref h)).isReady

def readyCount (h : Handle) : Method I M Nat := locked do
  return (← access (deref h)).readyCount

def noteReady (h : Handle) : Method I M Unit := do
  let sequence := (← access (deref h)).sequence
  if (← read World.readyGroups).contains sequence then return
  else
    access (modify fun w =>
      { w with readyGroups := w.readyGroups.set sequence h }.wrote (.setReady sequence h))
    access (modify fun w =>
      { w with readyHeap := heappush w.readyHeap sequence }.wrote (.push sequence))

def compactReadyHeap : Method I M Unit := do
  let heap ← read World.readyHeap
  let readyGroups ← read World.readyGroups
  if heap.length ≤ 2 * readyGroups.length + 8 then return
  else
    access (modify fun w => { w with readyHeap := w.readyGroups.keys })
    access (modify fun w =>
      { w with readyHeap := heapify w.readyHeap }.wrote (.rebuild w.readyGroups.length))

/-- The loop of a relaxed `peek`, for at most so many rounds. -/
def peekLoop : Nat → Method I M (Option Handle)
  | 0 => return none
  | rounds + 1 => do
    match ← read World.readyHeap with
    | [] => return none
    | top :: _ =>
      match (← read World.readyGroups).get? top with
      | some group => return some group
      | none =>
        access (modify fun w => { w with readyHeap := heappop w.readyHeap }.wrote (.popStale top))
        peekLoop rounds

/-- `peek`. A relaxed one has no more rounds to make than the heap has entries. -/
def peek : Method I M (Option Handle) := locked do
  if ← read World.strictOrder then
    match (← read World.groups).values.head? with
    | none => return none
    | some head => if ← isReady head then return some head else return none
  else
    let heap ← read World.readyHeap
    peekLoop (heap.length + 1)

/-- The sum in `TitoQueue.__repr__`. Each `is_ready` takes the lock once more. -/
def countReady : List Handle → Method I M Nat
  | [] => return 0
  | group :: rest => do
    let ready ← isReady group
    return ready.toNat + (← countReady rest)

/-- `TitoQueue.__repr__`, up to the text. -/
def queueRepr : Method I M (Nat × Nat) := locked do
  let waiting := (← read World.groups).length
  let ready ← countReady (← read World.groups).values
  return (waiting, ready)

/-- `groups`. -/
def waitingGroups : Method I M (List Handle) := locked do
  return (← read World.groups).values

/-- `__len__`. It takes no lock. -/
def len : Method I M Nat := read fun w => w.groups.length

variable [DecidableEq M]

def readyMembers (h : Handle) : Method I M (List M) := locked do
  return (← access (deref h)).readyMembers

def waitingMembers (h : Handle) : Method I M (List M) := locked do
  return (← access (deref h)).waitingMembers

/-- `Group.__repr__`, up to the text. -/
def groupRepr (h : Handle) : Method I M (Nat × List M) := locked do
  let count := (← access (deref h)).readyCount
  let waiting ← waitingMembers h
  return (count, waiting)

/-- `Group.mark_ready`, under the lock of the queue that admitted the group. -/
def groupMarkReady (h : Handle) (member : Value M) : Method I M Bool := locked do
  let group ← access (deref h)
  match group.markReady member with
  | .error e => raise e
  | .ok marked =>
    access (store h marked.group)
    match marked.call with
    | none => return marked.result
    | some .noteReady =>
      noteReady h
      return marked.result

/-- `__contains__`. It takes no lock. -/
def contains (member : Value M) : Method I M Bool :=
  match member with
  | .unhashable _ => return false
  | .hashable m => return (← read World.memberIndex).contains m

variable [DecidableEq I]

def remove (h : Handle) : Method I M Unit := do
  let group ← access (deref h)
  access (delGroup group.groupId)
  group.members.forM fun m => access (delMember m)
  access (setOnReady h none)
  if ← access (popReady group.sequence) then compactReadyHeap else return

def find (id : Value I) : Method I M (Option Handle) :=
  match id with
  | .unhashable _ => return none
  | .hashable id => return (← read World.groups).get? id

/-- `admit`. The group is built before the lock is taken. -/
def admitGroup (groupId : Value I) (members : Members M) : Method I M Handle :=
  match admitBuild groupId members with
  | .error e => raise e
  | .ok (id, group) => locked do
    if (← read World.groups).contains id then raise (.tito (.idInQueue id))
    else
      let memberIndex ← read World.memberIndex
      let alreadyQueued := group.members.filter fun m => memberIndex.contains m
      if alreadyQueued ≠ [] then
        raise (.tito (.membersInQueue alreadyQueued
          (alreadyQueued.filterMap fun m => (memberIndex.get? m).map fun id => (m, id))))
      else
        let sequence ← read World.sequence
        let h ← access (allocate { group with sequence := sequence })
        access (modify fun w => { w with sequence := w.sequence + 1 })
        access (setGroup id h)
        group.members.forM fun m => access (setMember id m)
        let callback ← read World.onReadyCallback
        access (setOnReady h callback)
        return h

def groupOf (member : Value M) : Method I M (Option Handle) := locked <|
  match member with
  | .unhashable _ => return none
  | .hashable m => do
    match (← read World.memberIndex).get? m with
    | none => return none
    | some id =>
      match (← read World.groups).get? id with
      | some h => return some h
      | none => raise .keyError

def markReady (member : Value M) : Method I M Bool := locked do
  match ← groupOf member with
  | none => raise (.tito (.memberNotQueued member))
  | some h => groupMarkReady h member

def markGroupReady (groupId : Value I) : Method I M Bool := locked do
  match ← find groupId with
  | none => raise (.tito (.groupNotQueued groupId))
  | some h =>
    let group ← access (deref h)
    group.members.forM fun m => do
      let _ ← groupMarkReady h (.hashable m)
    return true

def cancel (groupId : Value I) : Method I M Handle := locked do
  match ← find groupId with
  | none => raise (.tito (.groupNotQueued groupId))
  | some h =>
    remove h
    return h

def clear : Method I M (List Handle) := locked do
  let cleared := (← read World.groups).values
  cleared.forM fun h => access (setOnReady h none)
  access (modify fun w => { w with groups := Dict.empty }.wrote .clearGroups)
  access (modify fun w => { w with memberIndex := Dict.empty }.wrote .clearMembers)
  access (modify fun w => { w with readyGroups := Dict.empty }.wrote .clearReady)
  access (modify fun w => { w with readyHeap := [] }.wrote .clearHeap)
  return cleared

def release : Method I M (Option Handle) := locked do
  match ← peek with
  | none => return none
  | some h =>
    remove h
    return some h

/-- The loop of `release_all`, for at most so many rounds. -/
def releaseAllLoop : Nat → List Handle → Method I M (List Handle)
  | 0, released => return released
  | rounds + 1, released => do
    match ← release with
    | none => return released
    | some group => releaseAllLoop rounds (released ++ [group])

/-- `release_all`. It has no more rounds to make than there are groups. -/
def releaseAll : Method I M (List Handle) := locked do
  let groups ← read World.groups
  releaseAllLoop (groups.length + 1) []

section

omit [DecidableEq I] [DecidableEq M]

theorem serial_noteReady (h : Handle) :
    serial (noteReady (I := I) (M := M) h) = Tito.noteReady h := by
  simp only [noteReady, serial_bind, serial_access, serial_read, bind_map_left, Tito.noteReady]
  refine bind_congr fun g => bind_congr fun w => ?_
  split
  · rfl
  · simp only [serial_bind, serial_access]

theorem serial_compactReadyHeap :
    serial (compactReadyHeap (I := I) (M := M)) = Tito.compactReadyHeap := by
  refine ext_run fun w => ?_
  by_cases hl : w.readyHeap.length ≤ 2 * w.readyGroups.length + 8
  · simp [compactReadyHeap, Tito.compactReadyHeap, hl]
  · simp [compactReadyHeap, Tito.compactReadyHeap, hl, World.wrote]

theorem serial_peekLoop {rounds : Nat} {w : World I M} (h : w.readyHeap.length < rounds) :
    (serial (peekLoop rounds)).run w = .ok (Tito.peekLoop w).1 (Tito.peekLoop w).2 := by
  induction rounds generalizing w with
  | zero => exact absurd h (Nat.not_lt_zero _)
  | succ rounds ih =>
    cases hheap : w.readyHeap with
    | nil =>
      rw [peekLoop_nil hheap]
      simp [peekLoop, hheap]
    | cons top rest =>
      cases hready : w.readyGroups.get? top with
      | some group =>
        rw [peekLoop_live hheap hready]
        simp [peekLoop, hheap, hready]
      | none =>
        have hlen : (heappop w.readyHeap).length < rounds := by
          rw [hheap, LazyHeap.length_heappop_cons]
          rw [hheap, List.length_cons] at h
          omega
        have hrest := ih
          (w := { w with readyHeap := heappop w.readyHeap }.wrote (.popStale top)) hlen
        rw [peekLoop_stale hheap hready, ← hrest]
        simp [peekLoop, hheap, hready]

theorem serial_isReady (h : Handle) :
    serial (isReady (I := I) (M := M) h) = Group.isReady <$> deref h := by
  simp [isReady]

theorem serial_countReady (hs : List Handle) :
    serial (countReady (I := I) (M := M) hs) = Tito.countReady hs := by
  induction hs with
  | nil => rfl
  | cons h hs ih =>
    simp only [countReady, Tito.countReady, serial_bind, serial_isReady, ih, serial_pure,
      bind_map_left]

theorem serial_queueRepr : serial (queueRepr (I := I) (M := M)) = Tito.queueRepr := by
  simp only [queueRepr, Tito.queueRepr, serial_locked, serial_bind, serial_read, bind_map_left,
    serial_countReady, serial_pure]

theorem serial_peek : serial (peek (I := I) (M := M)) = Tito.peek := by
  refine ext_run fun w => ?_
  cases hs : w.strictOrder with
  | false =>
    have hloop := serial_peekLoop (Nat.lt_succ_self w.readyHeap.length)
    simpa [peek, Tito.peek, hs] using hloop
  | true =>
    cases hv : w.groups.values.head? with
    | none => simp [peek, Tito.peek, hs, hv]
    | some head =>
      cases hg : (deref head).run w with
      | error e w' => simp [peek, Tito.peek, hs, hv, hg, serial_isReady]
      | ok g w' =>
        cases hr : g.isReady with
        | true => simp [peek, Tito.peek, hs, hv, hg, hr, serial_isReady]
        | false => simp [peek, Tito.peek, hs, hv, hg, hr, serial_isReady]

end

omit [DecidableEq I] in
theorem serial_groupRepr (h : Handle) :
    serial (groupRepr (I := I) (M := M) h) = Tito.groupRepr h := by
  simp only [groupRepr, Tito.groupRepr, waitingMembers, serial_locked, serial_bind, serial_access,
    serial_pure, bind_assoc, pure_bind]

omit [DecidableEq I] in
theorem serial_groupMarkReady (h : Handle) (member : Value M) :
    serial (groupMarkReady (I := I) h member) = Tito.groupMarkReady h member := by
  simp only [groupMarkReady, Tito.groupMarkReady, serial_locked, serial_bind, serial_access]
  refine bind_congr fun g => ?_
  cases g.markReady member with
  | error e => rfl
  | ok marked =>
    simp only [serial_bind, serial_access]
    refine bind_congr fun _ => ?_
    cases marked.call with
    | none => rfl
    | some c =>
      cases c
      simp only [serial_bind, serial_noteReady, serial_pure]

theorem serial_remove (h : Handle) : serial (remove (I := I) (M := M) h) = Tito.remove h := by
  simp only [remove, Tito.remove, serial_bind, serial_access, List.forM_eq_forM, serial_forM]
  refine bind_congr fun g => bind_congr fun _ => bind_congr fun _ => bind_congr fun _ =>
    bind_congr fun b => ?_
  cases b with
  | true => exact serial_compactReadyHeap
  | false => rfl

omit [DecidableEq M] in
theorem serial_find (id : Value I) : serial (find (M := M) id) = Tito.find id := by
  cases id with
  | unhashable t => rfl
  | hashable id => simp [find, Tito.find]

theorem serial_admitGroup (groupId : Value I) (members : Members M) :
    serial (admitGroup groupId members) = Tito.admitGroup groupId members := by
  simp only [admitGroup, Tito.admitGroup]
  cases admitBuild groupId members with
  | error e => rfl
  | ok b =>
    obtain ⟨id, group⟩ := b
    refine ext_run fun w => ?_
    by_cases hid : id ∈ w.groups.keys
    · rw [admitCommit_run_of_listed hid]
      simp [hid]
    · by_cases hq : (group.members.filter fun m => w.memberIndex.contains m) = []
      · have hms : ∀ m ∈ group.members, m ∉ w.memberIndex.keys := by simpa using hq
        rw [admitCommit_run hid hms]
        simp only [serial_locked, serial_bind, serial_read, bind_map_left, EStateM.run_bind,
          EStateM.run_get, serial_ite, Dict.contains_iff, hid, if_false, hq, ne_eq,
          not_true_eq_false]
        simp [allocate, setGroup, forM_setMember_run, setOnReady, deref, store, World.admitted,
          World.wrote]
      · rw [admitCommit_run_of_queued hid hq]
        simp only [serial_locked, serial_bind, serial_read, bind_map_left, EStateM.run_bind,
          EStateM.run_get, serial_ite, Dict.contains_iff, hid, if_false, hq, ne_eq,
          not_false_eq_true, if_true, serial_raise, run_throw]

theorem serial_groupOf (member : Value M) :
    serial (groupOf (I := I) member) = Tito.groupOf member := by
  cases member with
  | unhashable t => rfl
  | hashable m =>
    simp only [groupOf, Tito.groupOf, serial_locked, serial_bind, serial_read, bind_map_left]
    refine bind_congr fun w => ?_
    cases w.memberIndex.get? m with
    | none => rfl
    | some id =>
      simp only [serial_bind, serial_read, bind_map_left]
      refine bind_congr fun w' => ?_
      cases w'.groups.get? id with
      | none => rfl
      | some h => rfl

theorem serial_markReady (member : Value M) :
    serial (markReady (I := I) member) = Tito.markReady member := by
  simp only [markReady, Tito.markReady, serial_locked, serial_bind, serial_groupOf]
  refine bind_congr fun o => ?_
  cases o with
  | none => rfl
  | some h => exact serial_groupMarkReady h member

theorem serial_markGroupReady (groupId : Value I) :
    serial (markGroupReady (M := M) groupId) = Tito.markGroupReady groupId := by
  simp only [markGroupReady, Tito.markGroupReady, serial_locked, serial_bind, serial_find]
  refine bind_congr fun o => ?_
  cases o with
  | none => rfl
  | some h =>
    simp only [serial_bind, serial_access, List.forM_eq_forM, serial_forM, serial_groupMarkReady,
      serial_pure]

theorem serial_cancel (groupId : Value I) :
    serial (cancel (M := M) groupId) = Tito.cancel groupId := by
  simp only [cancel, Tito.cancel, serial_locked, serial_bind, serial_find]
  refine bind_congr fun o => ?_
  cases o with
  | none => rfl
  | some h => simp only [serial_bind, serial_remove, serial_pure]

omit [DecidableEq I] [DecidableEq M] in
theorem serial_clear : serial (clear (I := I) (M := M)) = Tito.clear := by
  simp only [clear, Tito.clear, serial_locked, serial_bind, serial_read, List.forM_eq_forM,
    serial_forM, serial_access, serial_pure, bind_map_left]

theorem serial_release : serial (release (I := I) (M := M)) = Tito.release := by
  simp only [release, Tito.release, serial_locked, serial_bind, serial_peek]
  refine bind_congr fun o => ?_
  cases o with
  | none => rfl
  | some h => simp only [serial_bind, serial_remove, serial_pure]

/-- The rounds do not run out: each takes a group out of the map. -/
theorem serial_releaseAllLoop {rounds : Nat} {w : World I M} (h : w.groups.length < rounds)
    (released : List Handle) :
    (serial (releaseAllLoop rounds released)).run w = Tito.releaseAllLoop released w := by
  induction rounds generalizing w released with
  | zero => exact absurd h (Nat.not_lt_zero _)
  | succ rounds ih =>
    rw [releaseAllLoop_eq]
    simp only [releaseAllLoop, serial_bind, serial_release, EStateM.run_bind]
    cases hr : Tito.release.run w with
    | error e w' => rfl
    | ok o w' =>
      cases o with
      | none => rfl
      | some group =>
        have hlt := release_shrinks hr
        exact ih (by omega) _

theorem serial_releaseAll : serial (releaseAll (I := I) (M := M)) = Tito.releaseAll := by
  refine ext_run fun w => ?_
  have hloop := serial_releaseAllLoop (Nat.lt_succ_self w.groups.length) []
  simp only [releaseAll, serial_locked, serial_bind, serial_read, bind_map_left, EStateM.run_bind,
    EStateM.run_get]
  exact hloop

end Tito.Locked
