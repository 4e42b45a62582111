import Tito.Queue
import Tito.Lib.Mealy

namespace Tito

open Lib

/-- What a caller sees of a group: which object it is, its id, and its members with their
ready flags in admission order. -/
structure Entry (I M : Type) where
  handle : Handle
  groupId : Value I
  flags : List (M × Bool)
  deriving DecidableEq

inductive Answer (I M : Type) where
  | none
  | bool (b : Bool)
  | number (n : Nat)
  | group (e : Entry I M)
  | groups (es : List (Entry I M))
  deriving DecidableEq

/-- A call by a user of one queue; `groupMarkReady` is made on a handle. -/
inductive Op (I M : Type) where
  | admitGroup (groupId : Value I) (members : Members M)
  | markReady (member : Value M)
  | markGroupReady (groupId : Value I)
  | groupOf (member : Value M)
  | cancel (groupId : Value I)
  | clear
  | peek
  | release
  | releaseAll
  | groups
  | len
  | contains (member : Value M)
  | groupMarkReady (group : Handle) (member : Value M)
  deriving DecidableEq

variable {I M : Type}

def Group.entry (g : Group I M) (h : Handle) : Entry I M := ⟨h, g.groupId, g.ready.entries⟩

def World.look (w : World I M) (h : Handle) : Option (Entry I M) :=
  w.objects[h]?.map fun g => g.entry h

def showGroup : Option Handle → Py I M (Answer I M)
  | none => return .none
  | some h => return ((← get).look h).elim .none .group

def showGroups (hs : List Handle) : Py I M (Answer I M) :=
  return .groups (hs.filterMap (← get).look)

variable [DecidableEq I] [DecidableEq M]

/-- One call, answered by what its caller sees when it returns. -/
def perform : Op I M → Py I M (Answer I M)
  | .admitGroup groupId members => do showGroup (some (← admitGroup groupId members))
  | .markReady member => return .bool (← markReady member)
  | .markGroupReady groupId => return .bool (← markGroupReady groupId)
  | .groupOf member => do showGroup (← groupOf member)
  | .cancel groupId => do showGroup (some (← cancel groupId))
  | .clear => do showGroups (← clear)
  | .peek => do showGroup (← peek)
  | .release => do showGroup (← release)
  | .releaseAll => do showGroups (← releaseAll)
  | .groups => do showGroups (← waitingGroups)
  | .len => return .number (← len)
  | .contains member => return .bool (← contains member)
  | .groupMarkReady group member => return .bool (← groupMarkReady group member)

abbrev Outcome (I M : Type) := Except (PyError I M) (Answer I M)

/-- How a call ends. One that raises leaves what it had written. -/
def attempt (call : Py I M (Answer I M)) (w : World I M) : Outcome I M × World I M :=
  match call.run w with
  | .ok a w' => (.ok a, w')
  | .error e w' => (.error e, w')

def step : Mealy.Machine (World I M) (Op I M) (Outcome I M) := fun w op => attempt (perform op) w

theorem step_of_ok {w w' : World I M} {op : Op I M} {a : Answer I M}
    (h : (perform op).run w = .ok a w') : step w op = (.ok a, w') := by rw [step, attempt, h]

theorem step_of_error {w w' : World I M} {op : Op I M} {e : PyError I M}
    (h : (perform op).run w = .error e w') : step w op = (.error e, w') := by rw [step, attempt, h]

end Tito
