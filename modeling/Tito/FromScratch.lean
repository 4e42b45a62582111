import Tito.Operations

namespace Tito.FromScratch

open Lib

variable {I M : Type}

/-- The `TitoError` of `examples/tito_example.py`. -/
inductive TitoError (I M : Type) where
  | noMembers (groupId : I)
  | duplicateMembers (groupId : I)
  | notAMember (member : M) (groupId : I)
  | idInQueue (groupId : I)
  | membersInQueue (queued : List M)
  | memberNotQueued (member : M)
  | groupNotQueued (groupId : I)
  deriving DecidableEq

/-- What the example asks of the ids and members that it is given: whether an id is `None`, what
`"%s" % x` makes of them, which raises for a tuple that is not of one item, what `str` makes of
them, and whether a member is a `str` that `join` takes. -/
structure Texts (I M : Type) where
  isNone : I → Bool
  percentId : I → Option String
  percentMember : M → Option String
  strId : I → String
  strMember : M → String
  word : M → Option String

/-- Ids that are `None` or a `str`, and members that are `str`. -/
def Texts.str : Texts (Option String) String where
  isNone := Option.isNone
  percentId id := some (id.getD "None")
  percentMember := some
  strId id := id.getD "None"
  strMember m := m
  word := some

/-- The text of a `TitoError`. There is none where it cannot be formatted. -/
def TitoError.message (t : Texts I M) : TitoError I M → Option String
  | .noMembers g => do return "group " ++ (← t.percentId g) ++ " must contain at least one member"
  | .duplicateMembers g => do return "group " ++ (← t.percentId g) ++ " contains duplicate members"
  | .notAMember m g => return t.strMember m ++ " is not a member of group " ++ t.strId g
  | .idInQueue g => do return "group " ++ (← t.percentId g) ++ " is already in the queue"
  | .membersInQueue ms => do
    return "members already in the queue: " ++ " ".intercalate (← ms.mapM t.word)
  | .memberNotQueued m => do return (← t.percentMember m) ++ " is not in the queue"
  | .groupNotQueued g => do return "group " ++ (← t.percentId g) ++ " is not in the queue"

/-- An exception that leaves a call of the example, for arguments that can be hashed. -/
inductive PyError (I M : Type) where
  | tito (e : TitoError I M)
  | typeError
  | keyError
  | noObject
  deriving DecidableEq

/-- `Group` of the example. It knows nothing of the queue. -/
@[ext]
structure Group (I M : Type) where
  groupId : I
  members : List M
  ready : Dict M Bool
  readyCount : Nat
  keys_ready : ready.keys = members
  count_ready : readyCount = ready.values.count true
  members_ne_nil : members ≠ []

namespace Group

def isReady (g : Group I M) : Bool := g.readyCount == g.members.length

def entry (g : Group I M) (h : Handle) : Entry I M := ⟨h, .hashable g.groupId, g.ready.entries⟩

variable [DecidableEq M]

theorem nodup_of_length {members : List M}
    (hlen : (Dict.fromkeys members false).length = members.length) : members.Nodup :=
  (Dict.length_fromkeys_iff false).mp hlen

/-- A group as `__init__` leaves it, for members that passed its checks. -/
def fresh (groupId : I) (members : List M) (hne : ¬ members.isEmpty = true)
    (hlen : (Dict.fromkeys members false).length = members.length) : Group I M where
  groupId := groupId
  members := members
  ready := Dict.fromkeys members false
  readyCount := 0
  keys_ready := by
    rw [Dict.keys, Dict.entries_fromkeys (nodup_of_length hlen), List.map_map]
    exact List.map_id members
  count_ready := by
    rw [Dict.values, Dict.entries_fromkeys (nodup_of_length hlen), List.map_map]
    exact (List.count_eq_zero.mpr (by simp)).symm
  members_ne_nil := mt List.isEmpty_iff.mpr hne

/-- `Group.__init__`, for a list that has been made of `members`. -/
def init (groupId : I) (members : List M) : Except (TitoError I M) (Group I M) :=
  if hne : members.isEmpty then .error (.noMembers groupId)
  else if hlen : (Dict.fromkeys members false).length = members.length then
    .ok (fresh groupId members hne hlen)
  else .error (.duplicateMembers groupId)

/-- `self._ready[member] = True; self._ready_count += 1`. -/
def flag (g : Group I M) (m : M) (h : g.ready.get? m = some false) : Group I M :=
  { g with
    ready := g.ready.set m true
    readyCount := g.readyCount + 1
    keys_ready := by rw [Dict.keys_set_of_mem (Dict.mem_keys_iff.mpr ⟨false, h⟩), g.keys_ready]
    count_ready := by rw [Dict.count_values_set h (by decide), g.count_ready] }

/-- `Group.mark_ready`: the group it leaves and the value it returns. -/
def markReady (g : Group I M) (member : M) : Except (TitoError I M) (Group I M × Bool) :=
  match h : g.ready.get? member with
  | none => .error (.notAMember member g.groupId)
  | some true => .ok (g, g.isReady)
  | some false => .ok (g.flag member h, (g.flag member h).isReady)

end Group

/-- The fields of one queue of the example, with the group objects it has admitted. -/
structure Queue (I M : Type) where
  strictOrder : Bool
  groups : Dict I Handle
  memberIndex : Dict M I
  objects : List (Group I M)

def Queue.init (strictOrder : Bool) : Queue I M := ⟨strictOrder, Dict.empty, Dict.empty, []⟩

abbrev Py (I M : Type) := EStateM (PyError I M) (Queue I M)

/-- `raise TitoError(..)`. The text is made first. -/
def refuse {α : Type} (t : Texts I M) (e : TitoError I M) : Py I M α :=
  match e.message t with
  | some _ => throw (.tito e)
  | none => throw .typeError

def deref (h : Handle) : Py I M (Group I M) := do
  match (← get).objects[h]? with
  | some g => return g
  | none => throw .noObject

/-- The loop of `peek`. The head of a strict line blocks every group behind it. -/
def peekLoop : List Handle → Py I M (Option Handle)
  | [] => return none
  | h :: rest => do
    if (← deref h).isReady then return some h
    else if (← get).strictOrder then return none
    else peekLoop rest

def peek : Py I M (Option Handle) := do peekLoop (← get).groups.values

def clear : Py I M (List Handle) := do
  let cleared := (← get).groups.values
  modify fun q => { q with groups := Dict.empty, memberIndex := Dict.empty }
  return cleared

variable [DecidableEq M]

/-- `Group.mark_ready` on a group object. -/
def groupMarkReady (t : Texts I M) (h : Handle) (member : M) : Py I M Bool := do
  match (← deref h).markReady member with
  | .error e => refuse t e
  | .ok (group, result) =>
    modify fun q => { q with objects := q.objects.set h group }
    return result

/-- `del self._member_index[member]`. -/
def delMember (m : M) : Py I M Unit := do
  if (← get).memberIndex.contains m then
    modify fun q => { q with memberIndex := q.memberIndex.erase m }
  else throw .keyError

def contains (member : M) : Py I M Bool := return (← get).memberIndex.contains member

variable [DecidableEq I]

/-- `admit`. The group object becomes reachable when the map gets it. -/
def admitGroup (t : Texts I M) (groupId : I) (members : List M) : Py I M Handle := do
  match Group.init groupId members with
  | .error e => refuse t e
  | .ok group =>
    let q ← get
    let queued := group.members.filter fun m => q.memberIndex.contains m
    if q.groups.contains groupId then refuse t (.idInQueue groupId)
    else if queued ≠ [] then refuse t (.membersInQueue queued)
    else
      set { q with
        groups := q.groups.set groupId q.objects.length
        objects := q.objects ++ [group] }
      group.members.forM fun m => modify fun q =>
        { q with memberIndex := q.memberIndex.set m groupId }
      return q.objects.length

/-- `group_of`. A group whose id is `None` looks like no group. -/
def groupOf (t : Texts I M) (member : M) : Py I M (Option Handle) := do
  match (← get).memberIndex.get? member with
  | none => return none
  | some id =>
    if t.isNone id then return none
    else match (← get).groups.get? id with
      | some h => return some h
      | none => throw .keyError

def markReady (t : Texts I M) (member : M) : Py I M Bool := do
  match ← groupOf t member with
  | none => refuse t (.memberNotQueued member)
  | some h => groupMarkReady t h member

def markGroupReady (t : Texts I M) (groupId : I) : Py I M Bool := do
  match (← get).groups.get? groupId with
  | none => refuse t (.groupNotQueued groupId)
  | some h =>
    let group ← deref h
    group.members.forM fun m => do
      let _ ← groupMarkReady t h m
    return true

def remove (h : Handle) : Py I M Unit := do
  let group ← deref h
  if (← get).groups.contains group.groupId then
    modify fun q => { q with groups := q.groups.erase group.groupId }
    group.members.forM delMember
  else throw .keyError

def release : Py I M (Option Handle) := do
  match ← peek with
  | none => return none
  | some h =>
    remove h
    return some h

/-- The loop of `release_all`, for at most so many rounds. -/
def releaseAllLoop : Nat → List Handle → Py I M (List Handle)
  | 0, released => return released
  | rounds + 1, released => do
    match ← release with
    | none => return released
    | some group => releaseAllLoop rounds (released ++ [group])

/-- `release_all`. It has no more rounds to make than there are groups. -/
def releaseAll : Py I M (List Handle) := do releaseAllLoop ((← get).groups.length + 1) []

def cancel (t : Texts I M) (groupId : I) : Py I M Handle := do
  match (← get).groups.get? groupId with
  | none => refuse t (.groupNotQueued groupId)
  | some h =>
    remove h
    return h

/-- A call of the example, with ids and members that can be hashed. The members of an admission come
in a list: a bare `str`, which the package refuses, is a group of its letters to the example. -/
inductive Call (I M : Type) where
  | admitGroup (groupId : I) (members : List M)
  | markReady (member : M)
  | markGroupReady (groupId : I)
  | groupOf (member : M)
  | cancel (groupId : I)
  | clear
  | peek
  | release
  | releaseAll
  | groups
  | len
  | contains (member : M)
  | groupMarkReady (group : Handle) (member : M)
  deriving DecidableEq

def Queue.look (q : Queue I M) (h : Handle) : Option (Entry I M) :=
  q.objects[h]?.map fun g => g.entry h

def showGroup (o : Option Handle) : Py I M (Answer I M) := do
  let q ← get
  return (o.bind q.look).elim .none .group

def showGroups (hs : List Handle) : Py I M (Answer I M) :=
  return .groups (hs.filterMap (← get).look)

/-- One call, answered by what its caller sees when it returns. -/
def perform (t : Texts I M) : Call I M → Py I M (Answer I M)
  | .admitGroup groupId members => do showGroup (some (← admitGroup t groupId members))
  | .markReady member => return .bool (← markReady t member)
  | .markGroupReady groupId => return .bool (← markGroupReady t groupId)
  | .groupOf member => do showGroup (← groupOf t member)
  | .cancel groupId => do showGroup (some (← cancel t groupId))
  | .clear => do showGroups (← clear)
  | .peek => do showGroup (← peek)
  | .release => do showGroup (← release)
  | .releaseAll => do showGroups (← releaseAll)
  | .groups => do showGroups (← get).groups.values
  | .len => return .number (← get).groups.length
  | .contains member => return .bool (← contains member)
  | .groupMarkReady group member => return .bool (← groupMarkReady t group member)

/-- The queue of the example as a machine. -/
def step (t : Texts I M) :
    Mealy.Machine (Queue I M) (Call I M) (Except (PyError I M) (Answer I M)) := fun q call =>
  match (perform t call).run q with
  | .ok a q' => (.ok a, q')
  | .error e q' => (.error e, q')

end Tito.FromScratch
