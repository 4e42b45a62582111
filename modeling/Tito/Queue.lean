import Tito.World

namespace Tito

open Lib Lib.Effects

variable {I M : Type} [DecidableEq I] [DecidableEq M]

/-- `self._groups[id] = group`. -/
def setGroup (id : I) (h : Handle) : Py I M Unit :=
  modify fun w => { w with groups := w.groups.set id h }.wrote (.setGroup id h)

/-- `del self._groups[id]`. -/
def delGroup (id : Value I) : Py I M Unit :=
  match id with
  | .unhashable _ => throw .typeError
  | .hashable id => do
    if (← get).groups.contains id then
      modify fun w => { w with groups := w.groups.erase id }.wrote (.delGroup id)
    else throw .keyError

/-- `member_index[member] = id`. -/
def setMember (id : I) (m : M) : Py I M Unit :=
  modify fun w => { w with memberIndex := w.memberIndex.set m id }.wrote (.setMember m id)

/-- `del member_index[member]`. -/
def delMember (m : M) : Py I M Unit := do
  if (← get).memberIndex.contains m then
    modify fun w => { w with memberIndex := w.memberIndex.erase m }.wrote (.delMember m)
  else throw .keyError

/-- `_remove`. -/
def remove (h : Handle) : Py I M Unit := do
  let group ← deref h
  delGroup group.groupId
  group.members.forM delMember
  setOnReady h none
  if ← popReady group.sequence then compactReadyHeap

/-- `_find`. -/
def find (id : Value I) : Py I M (Option Handle) :=
  match id with
  | .unhashable _ => return none
  | .hashable id => return (← get).groups.get? id

/-- `Group.mark_ready` on an admitted group. The callback runs inside the call. -/
def groupMarkReady (h : Handle) (member : Value M) : Py I M Bool := do
  let group ← deref h
  match group.markReady member with
  | .error e => throw e
  | .ok marked =>
    store h marked.group
    match marked.call with
    | none => return marked.result
    | some .noteReady =>
      noteReady h
      return marked.result

/-- The part of `admit` before the lock: the group is built and the id is hashed. -/
def admitBuild (groupId : Value I) (members : Members M) :
    Except (PyError I M) (I × Group I M) :=
  match Group.init groupId members 0 with
  | .error e => .error e
  | .ok group =>
    match groupId with
    | .unhashable t => .error (.tito (.unhashableId (.unhashable t)))
    | .hashable id => .ok (id, group)

/-- The part of `admit` under the lock. The group object becomes reachable here. -/
def admitCommit (id : I) (group : Group I M) : Py I M Handle := do
  let w ← get
  let alreadyQueued := group.members.filter fun m => w.memberIndex.contains m
  if w.groups.contains id then throw (.tito (.idInQueue id))
  else if alreadyQueued ≠ [] then
    throw (.tito (.membersInQueue alreadyQueued
      (alreadyQueued.filterMap fun m => (w.memberIndex.get? m).map fun id => (m, id))))
  else
    let h ← allocate { group with sequence := w.sequence }
    modify fun w => { w with sequence := w.sequence + 1 }
    setGroup id h
    group.members.forM (setMember id)
    setOnReady h w.onReadyCallback
    return h

/-- `admit`. -/
def admitGroup (groupId : Value I) (members : Members M) : Py I M Handle :=
  match admitBuild groupId members with
  | .error e => throw e
  | .ok (id, group) => admitCommit id group

/-- `group_of`. -/
def groupOf (member : Value M) : Py I M (Option Handle) :=
  match member with
  | .unhashable _ => return none
  | .hashable m => do
    match (← get).memberIndex.get? m with
    | none => return none
    | some id =>
      match (← get).groups.get? id with
      | some h => return some h
      | none => throw .keyError

/-- `__contains__`. -/
def contains (member : Value M) : Py I M Bool :=
  match member with
  | .unhashable _ => return false
  | .hashable m => return (← get).memberIndex.contains m

/-- `TitoQueue.mark_ready`. -/
def markReady (member : Value M) : Py I M Bool := do
  match ← groupOf member with
  | none => throw (.tito (.memberNotQueued member))
  | some h => groupMarkReady h member

/-- `mark_group_ready`. -/
def markGroupReady (groupId : Value I) : Py I M Bool := do
  match ← find groupId with
  | none => throw (.tito (.groupNotQueued groupId))
  | some h =>
    let group ← deref h
    group.members.forM fun m => do
      let _ ← groupMarkReady h (.hashable m)
    return true

/-- `cancel`. -/
def cancel (groupId : Value I) : Py I M Handle := do
  match ← find groupId with
  | none => throw (.tito (.groupNotQueued groupId))
  | some h =>
    remove h
    return h

/-- `clear`. -/
def clear : Py I M (List Handle) := do
  let cleared := (← get).groups.values
  cleared.forM fun h => setOnReady h none
  modify fun w => { w with groups := Dict.empty }.wrote .clearGroups
  modify fun w => { w with memberIndex := Dict.empty }.wrote .clearMembers
  modify fun w => { w with readyGroups := Dict.empty }.wrote .clearReady
  modify fun w => { w with readyHeap := [] }.wrote .clearHeap
  return cleared

/-- `release`. -/
def release : Py I M (Option Handle) := do
  match ← peek with
  | none => return none
  | some h =>
    remove h
    return some h

section

variable {R : World I M → World I M → Prop} (hR : Frame R)

include hR

omit [DecidableEq I] in
theorem keeps_delMember (hdel : ∀ w m, m ∈ w.memberIndex.keys →
      R w ({ w with memberIndex := w.memberIndex.erase m }.wrote (.delMember m))) (m : M) :
    Keeps R (delMember m) := by
  intro w
  unfold after
  by_cases hm : m ∈ w.memberIndex.keys
  · simpa [delMember, hm] using hdel w m hm
  · simpa [delMember, hm] using hR.refl w

end

omit [DecidableEq I] in
/-- Only the first write of a removal is to the map. -/
theorem keeps_removal (h : Handle) (g : Group I M) :
    Keeps (fun w w' : World I M => w'.groups = w.groups) (do
      g.members.forM delMember
      setOnReady h none
      if ← popReady g.sequence then compactReadyHeap) := by
  have hR := frame_eq (fun w : World I M => w.groups)
  refine hR.bind (hR.forM (keeps_delMember hR fun _ _ _ => rfl) _) fun _ =>
    hR.bind (keeps_setOnReady hR (fun _ _ => rfl) h none) fun _ =>
    hR.bind (keeps_popReady hR (fun _ _ _ => rfl) _) fun b => ?_
  split
  · exact keeps_compactReadyHeap hR fun _ _ => rfl
  · exact hR.pure _

theorem remove_shrinks {h : Handle} {w w' : World I M} (hr : (remove h).run w = .ok () w') :
    w'.groups.length < w.groups.length := by
  have hR := frame_eq (fun w : World I M => w.groups)
  obtain ⟨g, t, hd, hr⟩ := bind_ok hr
  obtain ⟨_, u, hdel, hr⟩ := bind_ok hr
  have ht : t.groups = w.groups := (keeps_deref hR h).ok hd
  have hu : u.groups.length < t.groups.length := by
    cases hg : g.groupId with
    | unhashable text => simp [delGroup, hg] at hdel
    | hashable id =>
      by_cases hid : id ∈ t.groups.keys
      · have hl := Dict.length_erase_of_mem hid
        simp only [delGroup, hg, EStateM.run_bind, EStateM.run_get, Dict.contains_iff, hid, if_true,
          EStateM.run_modify, EStateM.Result.ok.injEq, true_and] at hdel
        rw [← hdel]
        dsimp only [World.wrote]
        omega
      · simp [delGroup, hg, hid] at hdel
  have hrest : w'.groups = u.groups := (keeps_removal h g).ok hr
  rw [hrest, ← ht]
  exact hu

theorem release_shrinks {h : Handle} {w w' : World I M} (hr : release.run w = .ok (some h) w') :
    w'.groups.length < w.groups.length := by
  have hR := frame_eq (fun w : World I M => w.groups)
  obtain ⟨o, t, hp, hr⟩ := bind_ok hr
  have ht : t.groups = w.groups := (keeps_peek hR fun _ _ _ _ _ => rfl).ok hp
  cases o with
  | none => cases hr
  | some k =>
    obtain ⟨_, u, hrem, hr⟩ := bind_ok hr
    obtain ⟨-, rfl⟩ : k = h ∧ u = w' := by simpa using hr
    rw [← ht]
    exact remove_shrinks hrem

/-- The loop of `release_all`. Every round takes a group out of the map. -/
def releaseAllLoop (released : List Handle) (w : World I M) :
    EStateM.Result (PyError I M) (World I M) (List Handle) :=
  match _h : release.run w with
  | .ok none w' => .ok released w'
  | .ok (some group) w' => releaseAllLoop (released ++ [group]) w'
  | .error e w' => .error e w'
termination_by w.groups.length
decreasing_by exact release_shrinks _h

/-- `release_all`. -/
def releaseAll : Py I M (List Handle) := releaseAllLoop []

end Tito
