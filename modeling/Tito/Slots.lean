import Tito.Lib.CString
import Tito.Lib.Mealy

namespace Tito.Slots

open Lib Lib.Memory

abbrev maxGroups : Nat := 16

abbrev maxMembers : Nat := 8

abbrev maxName : Nat := 32

abbrev maxMsg : Nat := 128

abbrev Name := Vector UInt8 maxName

abbrev Message := Vector UInt8 maxMsg

/-- `Group` of `examples/tito_example.c`. Entries behind `memberCount` may hold anything. -/
structure Group where
  id : Name
  members : Vector Name maxMembers
  ready : Vector Int maxMembers
  memberCount : Int
  readyCount : Int

/-- `TitoQueue` of the example. Slots behind `groupCount` may hold anything. -/
structure Queue where
  groups : Vector Group maxGroups
  groupCount : Int
  strictOrder : Int
  error : Message

/-- The characters of a string literal. -/
def literal (text : String) : List UInt8 := text.toList.map fun c => c.toNat.toUInt8

/-- `tito_init`, on memory that may hold anything. -/
def init (memory : Queue) (strictOrder : Int) : Option Queue := do
  let error ← write memory.error 0 0
  return { memory with groupCount := 0, strictOrder := strictOrder, error := error }

def nameFits (name : CString) : Bool := decide (name.chars.length < maxName)

def copyName (dst : Name) (src : CString) : Option Name := do return (← put dst 0 src.chars).1

/-- `append`, with the length so far. -/
def append (buf : Message) (len : Nat) (text : List UInt8) : Option (Message × Nat) :=
  put buf len text

def snprintf (buf : Message) (text : List UInt8) : Option Message := do return (← put buf 0 text).1

def groupIsReady (group : Group) : Bool := group.readyCount == group.memberCount

/-- The loop over the members of a group, up to the one that is looked for. -/
def findMember (group : Group) (member : CString) : Option (Option Nat) :=
  scan (fun i => do sameText (← group.members[i]?) 0 member.chars) 0 group.memberCount.toNat

def groupContains (group : Group) (member : CString) : Option Bool := do
  return (← findMember group member).isSome

/-- `if (!group->ready[i]) { group->ready[i] = 1; group->ready_count++; }` -/
def flag (group : Group) (i : Nat) : Option Group := do
  if (← group.ready[i]?) = 0 then
    return { group with ready := ← write group.ready i 1, readyCount := group.readyCount + 1 }
  else return group

/-- `group_mark_ready`: its result, the group and the reason it leaves. -/
def groupMarkReady (group : Group) (member : CString) (err : Message) :
    Option (Int × Group × Message) := do
  match ← findMember group member with
  | some i =>
    let group ← flag group i
    return (if groupIsReady group then 1 else 0, group, err)
  | none =>
    let text := member.chars ++ literal " is not a member of group " ++ (← textAt group.id 0)
    return (-1, group, ← snprintf err text)

/-- `tito_group_of`. The pointer it returns is a place in the line. -/
def groupOf (q : Queue) (member : CString) : Option (Option Nat) :=
  scan (fun g => do groupContains (← q.groups[g]?) member) 0 q.groupCount.toNat

def contains (q : Queue) (member : CString) : Option Bool := do
  return (← groupOf q member).isSome

/-- The loop over the groups, up to the one that bears the id. -/
def findGroup (q : Queue) (id : CString) : Option (Option Nat) :=
  scan (fun g => do sameText (← q.groups[g]?).id 0 id.chars) 0 q.groupCount.toNat

/-- `snprintf(queue->error, ...)` before a call fails. -/
def reason (q : Queue) (text : List UInt8) : Option Queue := do
  return { q with error := ← snprintf q.error text }

/-- A round of the loop in `tito_admit` that writes down the members already in the queue. -/
def noteQueued (q : Queue) (members : List CString) (i : Nat) :
    Message × Nat × Bool → Option (Message × Nat × Bool)
  | (error, len, queued) => do
    let member ← members[i]?
    if ← contains q member then
      let (error, len) ←
        if queued then some (error, len)
        else append (← write error 0 0) len (literal "members already in the queue:")
      let (error, len) ← append error len (literal " ")
      let (error, len) ← append error len member.chars
      return (error, len, true)
    else return (error, len, queued)

/-- `copy_name(group->members[i], members[i]); group->ready[i] = 0;` -/
def placeMember (members : List CString) (i : Nat) (group : Group) : Option Group := do
  let name ← copyName (← group.members[i]?) (← members[i]?)
  return { group with members := ← write group.members i name, ready := ← write group.ready i 0 }

/-- The group that `tito_admit` writes into a slot. -/
def place (group : Group) (id : CString) (members : List CString) (count : Int) : Option Group := do
  let id ← copyName group.id id
  each (placeMember members) 0 count.toNat
    { group with id := id, memberCount := count, readyCount := 0 }

/-- The part of `tito_admit` that looks into the queue: two checks, then the writes. -/
def enter (q : Queue) (id : CString) (members : List CString) (count : Int) :
    Option (Option Nat × Queue) := do
  if (← findGroup q id).isSome then
    return (none, ← reason q (literal "group " ++ id.chars ++ literal " is already in the queue"))
  else
    let (error, _, queued) ← each (noteQueued q members) 0 count.toNat (q.error, 0, false)
    let q := { q with error := error }
    if queued then return (none, q)
    else
      let slot := q.groupCount.toNat
      let group ← place (← q.groups[slot]?) id members count
      return (some slot,
        { q with groups := ← write q.groups slot group, groupCount := q.groupCount + 1 })

/-- `tito_admit`, with the place of the group that it returns. -/
def admitGroup (q : Queue) (id : CString) (members : List CString) (count : Int) :
    Option (Option Nat × Queue) := do
  if count ≤ 0 then
    return (none, ← reason q (literal "group " ++ id.chars ++
      literal " must contain at least one member"))
  else if !nameFits id then
    return (none, ← reason q (literal "group " ++ id.chars ++ literal " is too long"))
  else match ← scan (fun i => do return !nameFits (← members[i]?)) 0 count.toNat with
  | some i =>
    return (none, ← reason q (literal "member " ++ (← members[i]?).chars ++ literal " is too long"))
  | none =>
    let twice := fun i => scan (fun j => do return decide ((← members[j]?) = (← members[i]?))) 0 i
    if (← scan (fun i => do return (← twice i).isSome) 0 count.toNat).isSome then
      return (none, ← reason q (literal "group " ++ id.chars ++
        literal " contains duplicate members"))
    else if count > maxMembers ∨ q.groupCount = maxGroups then
      return (none, ← reason q (literal "group " ++ id.chars ++
        literal " does not fit in the queue"))
    else enter q id members count

/-- `tito_mark_ready`. -/
def markReady (q : Queue) (member : CString) : Option (Int × Queue) := do
  match ← groupOf q member with
  | none => return (-1, ← reason q (member.chars ++ literal " is not in the queue"))
  | some g =>
    let (code, group, error) ← groupMarkReady (← q.groups[g]?) member q.error
    return (code, { q with groups := ← write q.groups g group, error := error })

/-- `tito_mark_group_ready`. -/
def markGroupReady (q : Queue) (id : CString) : Option (Int × Queue) := do
  match ← findGroup q id with
  | some g =>
    let group ← q.groups[g]?
    let ready ← each (fun i ready => write ready i 1) 0 group.memberCount.toNat group.ready
    let group := { group with ready := ready, readyCount := group.memberCount }
    return (0, { q with groups := ← write q.groups g group })
  | none =>
    return (-1, ← reason q (literal "group " ++ id.chars ++ literal " is not in the queue"))

/-- `tito_peek_index`, with `none` for -1. The head of a strict line blocks every group behind. -/
def peekIndex (q : Queue) : Option (Option Nat) := do
  if q.groupCount = 0 then return none
  else if q.strictOrder ≠ 0 then return if groupIsReady (← q.groups[0]?) then some 0 else none
  else scan (fun g => do return groupIsReady (← q.groups[g]?)) 0 q.groupCount.toNat

/-- `tito_remove_at`. -/
def removeAt (q : Queue) (index : Nat) : Option Queue := do
  let groups ← moveDown index (q.groupCount - 1 - index).toNat q.groups
  return { q with groups := groups, groupCount := q.groupCount - 1 }

/-- `tito_release`, with what it writes to `*out` when it returns 1. -/
def release (q : Queue) : Option (Option Group × Queue) := do
  match ← peekIndex q with
  | none => return (none, q)
  | some index =>
    let out ← q.groups[index]?
    return (some out, ← removeAt q index)

/-- The loop of `tito_release_all`, with the room that is left in `out`. -/
def releaseAllLoop {n : Nat} : Nat → Nat → Vector Group n → Queue →
    Option (Nat × Vector Group n × Queue)
  | 0, count, out, q => some (count, out, q)
  | room + 1, count, out, q => do
    match ← release q with
    | (none, q) => return (count, out, q)
    | (some group, q) => releaseAllLoop room (count + 1) (← write out count group) q

/-- `tito_release_all`. -/
def releaseAll {n : Nat} (q : Queue) (out : Vector Group n) (capacity : Int) :
    Option (Nat × Vector Group n × Queue) :=
  releaseAllLoop capacity.toNat 0 out q

/-- `tito_cancel`, with what it writes to `*out` when it returns 0. -/
def cancel (q : Queue) (id : CString) : Option (Option Group × Queue) := do
  match ← findGroup q id with
  | some g =>
    let out ← q.groups[g]?
    return (some out, ← removeAt q g)
  | none =>
    return (none, ← reason q (literal "group " ++ id.chars ++ literal " is not in the queue"))

/-- `tito_clear`. -/
def clear {n : Nat} (q : Queue) (out : Vector Group n) (capacity : Int) :
    Option (Int × Vector Group n × Queue) := do
  let count := q.groupCount
  if capacity < count then
    return (-1, out, ← reason q (literal "clear output buffer is too small"))
  else
    let out ← each (fun g out => do write out g (← q.groups[g]?)) 0 count.toNat out
    return (count, out, { q with groupCount := 0 })

/-- A call of the example. Groups go to `out`, an array of the caller's. The arrays behind the
pointers that a call is given are apart from the queue and from each other, so that they are values
here: a name in `queue->error`, say, would be overwritten while it is printed there. -/
inductive Call where
  | admitGroup (id : CString) (members : List CString) (count : Int)
  | markReady (member : CString)
  | markGroupReady (id : CString)
  | groupOf (member : CString)
  | cancel (id : CString)
  | clear (n : Nat) (out : Vector Group n) (capacity : Int)
  | peek
  | release
  | releaseAll (n : Nat) (out : Vector Group n) (capacity : Int)
  | groups
  | len
  | contains (member : CString)
  | groupMarkReady (slot : Nat) (member : CString)

/-- A group as its texts and flags are printed. -/
abbrev Shown := List UInt8 × List (List UInt8 × Bool)

inductive Seen where
  | none
  | bool (b : Bool)
  | number (n : Int)
  | group (g : Shown)
  | groups (gs : List Shown)
  deriving DecidableEq

/-- What a call ends with: a result, or a reason. -/
abbrev Ending := Except (List UInt8) Seen

def Group.shown (group : Group) : Option Shown := do
  let flags ← collect (fun i => do
    return (← textAt (← group.members[i]?) 0, (← group.ready[i]?) != 0)) group.memberCount.toNat
  return (← textAt group.id 0, flags)

/-- The first groups of an array, as they are printed. -/
def shownGroups {n : Nat} (groups : Vector Group n) (count : Nat) : Option (List Shown) :=
  collect (fun i => do (← groups[i]?).shown) count

def failed (q : Queue) : Option (Ending × Queue) := do return (.error (← textAt q.error 0), q)

/-- What is behind a pointer that a call has returned. -/
def showSlot (q : Queue) : Option Nat → Option (Ending × Queue)
  | none => return (.ok .none, q)
  | some slot => do return (.ok (.group (← (← q.groups[slot]?).shown)), q)

/-- What a call has written to `*out`. -/
def showOut (q : Queue) : Option Group → Option (Ending × Queue)
  | none => return (.ok .none, q)
  | some group => do return (.ok (.group (← group.shown)), q)

/-- One call, answered by what its caller can print when it returns. -/
def perform (call : Call) (q : Queue) : Option (Ending × Queue) :=
  match call with
  | .admitGroup id members count => do
    match ← admitGroup q id members count with
    | (none, q) => failed q
    | (some slot, q) => showSlot q (some slot)
  | .markReady member => do
    let (code, q) ← markReady q member
    if code < 0 then failed q else return (.ok (.bool (decide (code = 1))), q)
  | .markGroupReady id => do
    let (code, q) ← markGroupReady q id
    if code ≠ 0 then failed q else return (.ok (.bool true), q)
  | .groupOf member => do showSlot q (← groupOf q member)
  | .cancel id => do
    match ← cancel q id with
    | (none, q) => failed q
    | (some group, q) => showOut q (some group)
  | .clear _ out capacity => do
    let (code, out, q) ← clear q out capacity
    if code < 0 then failed q else return (.ok (.groups (← shownGroups out code.toNat)), q)
  | .peek => do showSlot q (← peekIndex q)
  | .release => do
    let (out, q) ← release q
    showOut q out
  | .releaseAll _ out capacity => do
    let (count, out, q) ← releaseAll q out capacity
    return (.ok (.groups (← shownGroups out count)), q)
  | .groups => do return (.ok (.groups (← shownGroups q.groups q.groupCount.toNat)), q)
  | .len => return (.ok (.number q.groupCount), q)
  | .contains member => do return (.ok (.bool (← contains q member)), q)
  | .groupMarkReady slot member => do
    let (code, group, error) ← groupMarkReady (← q.groups[slot]?) member q.error
    let q := { q with groups := ← write q.groups slot group, error := error }
    if code < 0 then failed q else return (.ok (.bool (decide (code = 1))), q)

/-- The queue of the example as a machine, with `none` for a call whose behaviour is undefined. -/
def step : Mealy.Machine Queue Call (Option Ending) := fun q call =>
  match perform call q with
  | some (ending, q') => (some ending, q')
  | none => (none, q)

end Tito.Slots
