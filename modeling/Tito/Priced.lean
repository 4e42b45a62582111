import Tito.Peeking
import Tito.Lib.Cost
import Tito.Lib.HeapRounds

namespace Tito.Priced

open Lib Lib.Heapq Lib.Effects Lib.Cost

variable {I M : Type}

/-- A method that counts its steps. A statement of the source that is executed is a step, also one
in a property or method that is called: an `if`, `with`, `except` or `raise` when it is reached, a
`while` or `for` whenever its head is, a `try` not at all. A statement that walks through something
takes a step more for each item (`tuple`, `list`, `fromkeys`, a comprehension, `clear`, the search
of a list) and for each round of the loops of `heapq`. The texts of errors are not counted. -/
abbrev Method (I M α : Type) := Metered (PyError I M) (World I M) α

def isReady (h : Handle) : Method I M Bool := do
  tick 1  -- `with`
  return (← once (deref h)).isReady

/-- `_note_ready`, which looks `group.sequence` up by its property. -/
def noteReady (h : Handle) : Method I M Unit := do
  tick 1
  let sequence := (← once (deref h)).sequence
  if (← once get).readyGroups.contains sequence then tick 1
  else
    once (modify fun w =>
      { w with readyGroups := w.readyGroups.set sequence h }.wrote (.setReady sequence h))
    charge (fun w => heappushRounds w.readyHeap sequence + 1) (modify fun w =>
      { w with readyHeap := heappush w.readyHeap sequence }.wrote (.push sequence))

def compactReadyHeap : Method I M Unit := do
  let w ← once get
  if w.readyHeap.length ≤ 2 * w.readyGroups.length + 8 then tick 1
  else
    charge (fun w => w.readyGroups.length + heapifyRounds w.readyGroups.keys + 2) (modify fun w =>
      { w with readyHeap := heapify w.readyGroups.keys }.wrote (.rebuild w.readyGroups.length))

/-- The steps of the loop of a relaxed `peek`, with the `return` after it. -/
def peekLoopSteps (w : World I M) : Nat :=
  match _h : w.readyHeap with
  | [] => 2
  | top :: _ =>
    match w.readyGroups.get? top with
    | some _ => 4
    | none =>
      peekLoopSteps ({ w with readyHeap := heappop w.readyHeap }.wrote (.popStale top)) +
        heappopRounds w.readyHeap + 4
termination_by w.readyHeap.length
decreasing_by
  simp only [World.wrote, _h, LazyHeap.length_heappop_cons, List.length_cons]
  omega

theorem peekLoopSteps_nil {w : World I M} (h : w.readyHeap = []) : peekLoopSteps w = 2 := by
  rw [peekLoopSteps]
  split
  · rfl
  · rename_i h'
    rw [h] at h'
    cases h'

theorem peekLoopSteps_live {w : World I M} {top : Nat} {t : List Nat} {g : Handle}
    (h : w.readyHeap = top :: t) (hg : w.readyGroups.get? top = some g) :
    peekLoopSteps w = 4 := by
  rw [peekLoopSteps]
  split
  · rename_i h'
    rw [h] at h'
    cases h'
  · rename_i h'
    rw [h] at h'
    cases h'
    rw [hg]

theorem peekLoopSteps_stale {w : World I M} {top : Nat} {t : List Nat}
    (h : w.readyHeap = top :: t) (hg : w.readyGroups.get? top = none) :
    peekLoopSteps w =
      peekLoopSteps ({ w with readyHeap := heappop w.readyHeap }.wrote (.popStale top)) +
        heappopRounds w.readyHeap + 4 := by
  rw [peekLoopSteps]
  split
  · rename_i h'
    rw [h] at h'
    cases h'
  · rename_i h'
    rw [h] at h'
    cases h'
    rw [hg]

def peek : Method I M (Option Handle) := do
  tick 1  -- `with`
  let w ← once get
  if w.strictOrder then
    tick 2  -- `head` is found, and asked whether it is there
    match w.groups.values.head? with
    | none =>
      tick 1
      return none
    | some head =>
      let ready ← isReady head
      tick 1
      if ready then return some head else return none
  else
    tick 2
    charge peekLoopSteps (modifyGet peekLoop)

/-- `groups`. -/
def waitingGroups : Method I M (List Handle) := do
  tick 1  -- `with`
  return (← charge (fun w => w.groups.length + 1) get).groups.values

def len : Method I M Nat := return (← once get).groups.length

variable [DecidableEq M]

def readyMembers (h : Handle) : Method I M (List M) := do
  tick 2  -- `with`, and the look at the flags
  let group ← once (deref h)
  tick group.members.length
  return group.readyMembers

def waitingMembers (h : Handle) : Method I M (List M) := do
  tick 2
  let group ← once (deref h)
  tick group.members.length
  return group.waitingMembers

/-- The steps of the loop that collects `duplicates`. To look for a member there is to walk through
a list, as far as the member is found. -/
def duplicatesSteps : List M → List M → List M → Nat
  | _, _, [] => 1
  | seen, duplicates, m :: rest =>
    duplicatesSteps (m :: seen)
      (if m ∈ seen ∧ m ∉ duplicates then duplicates ++ [m] else duplicates) rest +
      (if m ∈ seen then min (duplicates.idxOf m + 1) duplicates.length else 0) +
      (if m ∈ seen ∧ m ∉ duplicates then 4 else 3)

/-- The steps of `Group.__init__`, to the error or to the last of the seven fields. `hash` of an
unhashable member ends the walk of `fromkeys`, and is tried once more for each by `_is_hashable`. -/
def initSteps : Members M → Nat
  | .text _ => 2
  | .notIterable => 2
  | .iterable elements =>
    let k := elements.length
    if elements = [] then 4
    else match hashAll elements with
    | none =>
      4 + k + ((elements.takeWhile isHashable).length + 1) +
        (2 + (elements.map fun v => if isHashable v then 3 else 4).sum) + 1
    | some memberList =>
      if (Dict.fromkeys memberList false).length = k then 5 + 2 * k + 7
      else 5 + 2 * k + 2 + duplicatesSteps [] [] memberList + 1

/-- The steps of `Group.mark_ready` after the look at the flag, up to the callback. -/
def markSteps (g : Group I M) : Value M → Nat
  | .unhashable _ => 3
  | .hashable m =>
    match g.ready.get? m with
    | none => 2
    | some true => 2
    | some false => if g.readyCount + 1 = g.members.length then 6 else 5

/-- `Group.mark_ready`. The callback takes four steps on the way to `_note_ready`. -/
def groupMarkReady (h : Handle) (member : Value M) : Method I M Bool := do
  tick 1  -- `with`
  let group ← once (deref h)
  tick (markSteps group member)
  match group.markReady member with
  | .error e => free (throw e)
  | .ok marked =>
    free (store h marked.group)
    match marked.call with
    | none => return marked.result
    | some .noteReady =>
      tick 4
      noteReady h
      return marked.result

def contains (member : Value M) : Method I M Bool :=
  match member with
  | .unhashable _ => do
    tick 3
    return false
  | .hashable m => return (← once get).memberIndex.contains m

variable [DecidableEq I]

/-- `_remove`. The properties `members` and `sequence` are a step each. -/
def remove (h : Handle) : Method I M Unit := do
  let group ← free (deref h)
  once (delGroup group.groupId)
  tick 2
  group.members.forM fun m => do
    tick 1
    once (delMember m)
  tick 1
  once (setOnReady h none)
  tick 1
  if ← once (popReady group.sequence) then
    tick 1
    compactReadyHeap

def find (id : Value I) : Method I M (Option Handle) :=
  match id with
  | .unhashable _ => do
    tick 3
    return none
  | .hashable id => return (← once get).groups.get? id

/-- The part of `admit` under the lock. -/
def admitCommit (id : I) (group : Group I M) : Method I M Handle := do
  tick 1  -- `with`
  let w ← once get
  let alreadyQueued := group.members.filter fun m => w.memberIndex.contains m
  if w.groups.contains id then raise (.tito (.idInQueue id))
  else
    tick (group.members.length + 4)
    if alreadyQueued ≠ [] then
      tick (alreadyQueued.length + 1)
      raise (.tito (.membersInQueue alreadyQueued
        (alreadyQueued.filterMap fun m => (w.memberIndex.get? m).map fun id => (m, id))))
    else
      let h ← once (allocate { group with sequence := w.sequence })
      once (modify fun w => { w with sequence := w.sequence + 1 })
      tick 1  -- `group._lock`
      once (setGroup id h)
      tick 1
      group.members.forM fun m => do
        tick 1
        once (setMember id m)
      tick 1
      once (setOnReady h w.onReadyCallback)
      tick 1
      return h

/-- The steps of `admit` before it takes the lock: the group is built, and the id is hashed. -/
def buildSteps (groupId : Value I) (members : Members M) : Nat :=
  match Group.init groupId members 0, groupId with
  | .error _, _ => initSteps members + 1
  | .ok _, .hashable _ => initSteps members + 2
  | .ok _, .unhashable _ => initSteps members + 4

/-- `admit`. -/
def admitGroup (groupId : Value I) (members : Members M) : Method I M Handle := do
  tick (buildSteps groupId members)
  match admitBuild groupId members with
  | .error e => free (throw e)
  | .ok (id, group) => admitCommit id group

def groupOf (member : Value M) : Method I M (Option Handle) := do
  tick 1  -- `with`
  match member with
  | .unhashable _ =>
    tick 4
    return none
  | .hashable m =>
    match (← once get).memberIndex.get? m with
    | none =>
      tick 2
      return none
    | some id =>
      match (← once get).groups.get? id with
      | some h => return some h
      | none => free (throw .keyError)

def markReady (member : Value M) : Method I M Bool := do
  tick 2  -- `with`, and the call of `group_of`
  let group ← groupOf member
  tick 1
  match group with
  | none => raise (.tito (.memberNotQueued member))
  | some h =>
    tick 1
    groupMarkReady h member

def markGroupReady (groupId : Value I) : Method I M Bool := do
  tick 2
  let group ← find groupId
  tick 1
  match group with
  | none => raise (.tito (.groupNotQueued groupId))
  | some h =>
    let group ← once (deref h)
    group.members.forM fun m => do
      tick 2
      let _ ← groupMarkReady h (.hashable m)
    tick 2
    return true

def cancel (groupId : Value I) : Method I M Handle := do
  tick 2
  let group ← find groupId
  tick 1
  match group with
  | none => raise (.tito (.groupNotQueued groupId))
  | some h =>
    tick 1
    remove h
    tick 1
    return h

def clear : Method I M (List Handle) := do
  tick 1  -- `with`
  let cleared := (← charge (fun w => w.groups.length + 1) get).groups.values
  cleared.forM fun h => do
    tick 1
    once (setOnReady h none)
  tick 1
  charge (fun w => w.groups.length + 1) (modify fun w =>
    { w with groups := Dict.empty }.wrote .clearGroups)
  charge (fun w => w.memberIndex.length + 1) (modify fun w =>
    { w with memberIndex := Dict.empty }.wrote .clearMembers)
  charge (fun w => w.readyGroups.length + 1) (modify fun w =>
    { w with readyGroups := Dict.empty }.wrote .clearReady)
  charge (fun w => w.readyHeap.length + 1) (modify fun w =>
    { w with readyHeap := [] }.wrote .clearHeap)
  tick 1
  return cleared

def release : Method I M (Option Handle) := do
  tick 2
  let group ← peek
  tick 2
  match group with
  | none => return none
  | some h =>
    remove h
    tick 1
    return some h

/-- The loop of `release_all`, for at most so many rounds. -/
def releaseAllLoop : Nat → List Handle → Method I M (List Handle)
  | 0, released => return released
  | rounds + 1, released => do
    tick 2
    let group ← release
    tick 2
    match group with
    | none => return released
    | some group => releaseAllLoop rounds (released ++ [group])

/-- `release_all`. It has no more rounds to make than there are groups. -/
def releaseAll : Method I M (List Handle) := do
  tick 2
  let w ← free get
  releaseAllLoop (w.groups.length + 1) []

/-- One call, as `Tito.perform` has it. What a caller sees of the groups is looked up when the call
is over. -/
def perform : Op I M → Method I M (Answer I M)
  | .admitGroup groupId members => do free (showGroup (some (← admitGroup groupId members)))
  | .markReady member => return .bool (← markReady member)
  | .markGroupReady groupId => return .bool (← markGroupReady groupId)
  | .groupOf member => do free (showGroup (← groupOf member))
  | .cancel groupId => do free (showGroup (some (← cancel groupId)))
  | .clear => do free (showGroups (← clear))
  | .peek => do free (showGroup (← peek))
  | .release => do free (showGroup (← release))
  | .releaseAll => do free (showGroups (← releaseAll))
  | .groups => do free (showGroups (← waitingGroups))
  | .len => return .number (← len)
  | .contains member => return .bool (← contains member)
  | .groupMarkReady group member => return .bool (← groupMarkReady group member)

section

omit [DecidableEq I] [DecidableEq M]

theorem unmetered_noteReady (h : Handle) :
    unmetered (noteReady (I := I) (M := M) h) = Tito.noteReady h := by
  simp only [noteReady, Tito.noteReady, unmetered_tick, pure_bind, unmetered_bind, unmetered_once]
  refine bind_congr fun g => bind_congr fun w => ?_
  split
  · rfl
  · rfl

theorem unmetered_compactReadyHeap :
    unmetered (compactReadyHeap (I := I) (M := M)) = Tito.compactReadyHeap := by
  simp only [compactReadyHeap, Tito.compactReadyHeap, unmetered_bind, unmetered_once]
  refine bind_congr fun w => ?_
  split
  · rfl
  · rfl

theorem unmetered_isReady (h : Handle) :
    unmetered (isReady (I := I) (M := M) h) = Group.isReady <$> deref h := by
  rw [isReady, unmetered_tick_bind, unmetered_bind, unmetered_once]
  rfl

theorem unmetered_peek : unmetered (peek (I := I) (M := M)) = Tito.peek := by
  simp only [peek, Tito.peek, unmetered_tick, pure_bind, unmetered_bind, unmetered_once]
  refine bind_congr fun w => ?_
  split
  · rw [unmetered_tick_bind]
    cases w.groups.values.head? with
    | none => rfl
    | some head =>
      simp only [unmetered_bind, unmetered_isReady, bind_map_left, unmetered_tick, pure_bind,
        unmetered_ite, unmetered_pure]
  · rfl

end

section

omit [DecidableEq I]

theorem unmetered_readyMembers (h : Handle) :
    unmetered (readyMembers (I := I) (M := M) h) = Group.readyMembers <$> deref h := by
  simp only [readyMembers, unmetered_tick, pure_bind, unmetered_bind, unmetered_once]
  rfl

theorem unmetered_waitingMembers (h : Handle) :
    unmetered (waitingMembers (I := I) (M := M) h) = Group.waitingMembers <$> deref h := by
  simp only [waitingMembers, unmetered_tick, pure_bind, unmetered_bind, unmetered_once]
  rfl

theorem unmetered_groupMarkReady (h : Handle) (member : Value M) :
    unmetered (groupMarkReady (I := I) h member) = Tito.groupMarkReady h member := by
  simp only [groupMarkReady, Tito.groupMarkReady, unmetered_tick, pure_bind, unmetered_bind,
    unmetered_once]
  refine bind_congr fun g => ?_
  cases g.markReady member with
  | error e => rfl
  | ok marked =>
    simp only [unmetered_bind, unmetered_free]
    refine bind_congr fun _ => ?_
    cases marked.call with
    | none => rfl
    | some c =>
      cases c
      simp only [unmetered_tick, pure_bind, unmetered_bind, unmetered_noteReady, unmetered_pure]

theorem unmetered_contains (member : Value M) :
    unmetered (contains (I := I) member) = Tito.contains member := by
  cases member with
  | unhashable t => rfl
  | hashable m => rfl

end

theorem unmetered_remove (h : Handle) :
    unmetered (remove (I := I) (M := M) h) = Tito.remove h := by
  simp only [remove, Tito.remove, unmetered_bind, unmetered_free, unmetered_once, unmetered_tick,
    pure_bind, List.forM_eq_forM, unmetered_forM, unmetered_ite, unmetered_compactReadyHeap,
    unmetered_pure]

omit [DecidableEq M] in
theorem unmetered_find (id : Value I) : unmetered (find (M := M) id) = Tito.find id := by
  cases id with
  | unhashable t => rfl
  | hashable id => rfl

theorem unmetered_admitCommit (id : I) (group : Group I M) :
    unmetered (admitCommit id group) = Tito.admitCommit id group := by
  simp only [admitCommit, Tito.admitCommit, unmetered_tick, pure_bind, unmetered_bind, unmetered_once]
  refine bind_congr fun w => ?_
  split
  · rfl
  · rw [unmetered_tick_bind]
    split
    · rfl
    · simp only [unmetered_bind, unmetered_once, unmetered_tick, pure_bind, List.forM_eq_forM,
        unmetered_forM, unmetered_pure]

theorem unmetered_admitGroup (groupId : Value I) (members : Members M) :
    unmetered (admitGroup groupId members) = Tito.admitGroup groupId members := by
  rw [admitGroup, Tito.admitGroup, unmetered_tick_bind]
  cases admitBuild groupId members with
  | error e => rfl
  | ok built => exact unmetered_admitCommit built.1 built.2

theorem unmetered_groupOf (member : Value M) :
    unmetered (groupOf (I := I) member) = Tito.groupOf member := by
  cases member with
  | unhashable t => rfl
  | hashable m =>
    simp only [groupOf, Tito.groupOf, unmetered_bind, unmetered_tick, pure_bind, unmetered_once]
    refine bind_congr fun w => ?_
    cases w.memberIndex.get? m with
    | none => rfl
    | some id =>
      simp only [unmetered_bind, unmetered_once]
      refine bind_congr fun w' => ?_
      cases w'.groups.get? id with
      | none => rfl
      | some h => rfl

theorem unmetered_markReady (member : Value M) :
    unmetered (markReady (I := I) member) = Tito.markReady member := by
  rw [markReady, Tito.markReady, unmetered_tick_bind, unmetered_bind, unmetered_groupOf]
  refine bind_congr fun o => ?_
  rw [unmetered_tick_bind]
  cases o with
  | none => rfl
  | some h => exact (unmetered_tick_bind _ _).trans (unmetered_groupMarkReady h member)

theorem unmetered_markGroupReady (groupId : Value I) :
    unmetered (markGroupReady (M := M) groupId) = Tito.markGroupReady groupId := by
  rw [markGroupReady, Tito.markGroupReady, unmetered_tick_bind, unmetered_bind, unmetered_find]
  refine bind_congr fun o => ?_
  rw [unmetered_tick_bind]
  cases o with
  | none => rfl
  | some h =>
    simp only [unmetered_bind, unmetered_once, unmetered_tick, pure_bind, List.forM_eq_forM,
      unmetered_forM, unmetered_groupMarkReady, unmetered_pure]

theorem unmetered_cancel (groupId : Value I) :
    unmetered (cancel (M := M) groupId) = Tito.cancel groupId := by
  rw [cancel, Tito.cancel, unmetered_tick_bind, unmetered_bind, unmetered_find]
  refine bind_congr fun o => ?_
  rw [unmetered_tick_bind]
  cases o with
  | none => rfl
  | some h =>
    simp only [unmetered_bind, unmetered_tick, pure_bind, unmetered_remove, unmetered_pure]

omit [DecidableEq I] [DecidableEq M] in
theorem unmetered_clear : unmetered (clear (I := I) (M := M)) = Tito.clear := by
  simp only [clear, Tito.clear, unmetered_bind, unmetered_charge, unmetered_tick, pure_bind,
    List.forM_eq_forM, unmetered_forM, unmetered_once, unmetered_pure]

theorem unmetered_release : unmetered (release (I := I) (M := M)) = Tito.release := by
  rw [release, Tito.release, unmetered_tick_bind, unmetered_bind, unmetered_peek]
  refine bind_congr fun o => ?_
  rw [unmetered_tick_bind]
  cases o with
  | none => rfl
  | some h =>
    simp only [unmetered_bind, unmetered_tick, pure_bind, unmetered_remove, unmetered_pure]

theorem unmetered_releaseAllLoop {rounds : Nat} {w : World I M} (h : w.groups.length < rounds)
    (released : List Handle) :
    (unmetered (releaseAllLoop rounds released)).run w = Tito.releaseAllLoop released w := by
  induction rounds generalizing w released with
  | zero => exact absurd h (Nat.not_lt_zero _)
  | succ rounds ih =>
    rw [releaseAllLoop_eq]
    simp only [releaseAllLoop, unmetered_tick, pure_bind, unmetered_bind, unmetered_release,
      EStateM.run_bind]
    cases hr : Tito.release.run w with
    | error e w' => rfl
    | ok o w' =>
      cases o with
      | none => rfl
      | some group =>
        have hlt := release_shrinks hr
        exact ih (by omega) _

theorem unmetered_releaseAll : unmetered (releaseAll (I := I) (M := M)) = Tito.releaseAll :=
  ext_run fun w => unmetered_releaseAllLoop (Nat.lt_succ_self w.groups.length) []

/-- The methods that count their steps do what those of the queue do. -/
theorem unmetered_perform (op : Op I M) : unmetered (perform op) = Tito.perform op := by
  cases op with
  | admitGroup groupId members =>
    rw [perform, unmetered_bind, unmetered_admitGroup]
    rfl
  | markReady member =>
    rw [perform, unmetered_bind, unmetered_markReady]
    rfl
  | markGroupReady groupId =>
    rw [perform, unmetered_bind, unmetered_markGroupReady]
    rfl
  | groupOf member =>
    rw [perform, unmetered_bind, unmetered_groupOf]
    rfl
  | cancel groupId =>
    rw [perform, unmetered_bind, unmetered_cancel]
    rfl
  | clear =>
    rw [perform, unmetered_bind, unmetered_clear]
    rfl
  | peek =>
    rw [perform, unmetered_bind, unmetered_peek]
    rfl
  | release =>
    rw [perform, unmetered_bind, unmetered_release]
    rfl
  | releaseAll =>
    rw [perform, unmetered_bind, unmetered_releaseAll]
    rfl
  | groups => rfl
  | len => rfl
  | contains member =>
    rw [perform, unmetered_bind, unmetered_contains]
    rfl
  | groupMarkReady group member =>
    rw [perform, unmetered_bind, unmetered_groupMarkReady]
    rfl

end Tito.Priced
