import Tito.Lib.Dict
import Tito.Lib.Text

namespace Tito

open Lib.Text

/-- A Python value handed in as a group id or a member. Equality of hashable values is that
of `α`; an unhashable value is known by its text only. -/
inductive Value (α : Type) where
  | hashable (a : α)
  | unhashable (text : String)
  deriving DecidableEq

def isHashable {α : Type} : Value α → Bool
  | .hashable _ => true
  | .unhashable _ => false

/-- The `members` argument of `admit`: a `str` or `bytes`, a value that cannot be iterated,
or an iterable with the elements it yields. -/
inductive Members (M : Type) where
  | text (text : String)
  | notIterable
  | iterable (elements : List (Value M))
  deriving DecidableEq

inductive TitoError (I M : Type) where
  | textMembers (groupId : Value I) (members : String)
  | noMembers (groupId : Value I)
  | unhashableMembers (groupId : Value I) (unhashable : List (Value M))
  | duplicateMembers (groupId : Value I) (duplicates : List M)
  | notAMember (member : Value M) (groupId : Value I) (members : List M)
  | unhashableId (groupId : Value I)
  | idInQueue (groupId : I)
  | membersInQueue (alreadyQueued : List M) (heldBy : List (M × I))
  | memberNotQueued (member : Value M)
  | groupNotQueued (groupId : Value I)
  deriving DecidableEq

/-- An exception that leaves a call. `noObject` stands for the use of a handle that no call
has returned, which a Python caller cannot write. -/
inductive PyError (I M : Type) where
  | tito (e : TitoError I M)
  | keyError
  | typeError
  | noObject
  deriving DecidableEq

variable {I M : Type}

/-- `repr` of a list or of the items of a dictionary, from the texts of its parts. -/
def listed (opening closing : String) (parts : List String) : String :=
  opening ++ ", ".intercalate parts ++ closing

/-- The text of a `TitoError`, for given `repr` functions of ids and members. -/
def TitoError.message (reprI : Value I → String) (reprM : Value M → String) :
    TitoError I M → String
  | .textMembers g ms =>
    "group " ++ reprI g ++ " was given " ++ ms ++ " as its members; " ++
      "pass a collection such as [" ++ ms ++ "] instead"
  | .noMembers g => "group " ++ reprI g ++ " must contain at least one member"
  | .unhashableMembers g us =>
    "group " ++ reprI g ++ " contains unhashable members: " ++ listed "[" "]" (us.map reprM)
  | .duplicateMembers g ds =>
    "group " ++ reprI g ++ " contains duplicate members: " ++
      listed "[" "]" (ds.map fun m => reprM (.hashable m))
  | .notAMember m g ms =>
    reprM m ++ " is not a member of group " ++ reprI g ++ "; its members are " ++
      listed "[" "]" (ms.map fun m => reprM (.hashable m))
  | .unhashableId g => "group id " ++ reprI g ++ " is not hashable"
  | .idInQueue g =>
    "group " ++ reprI (.hashable g) ++ " is already in the queue; use a distinct group id"
  | .membersInQueue ms held =>
    "members already in the queue: " ++ listed "[" "]" (ms.map fun m => reprM (.hashable m)) ++
      " (held by " ++
      listed "\x7b" "\x7d"
        (held.map fun e => reprM (.hashable e.1) ++ ": " ++ reprI (.hashable e.2)) ++
      ")"
  | .memberNotQueued m =>
    reprM m ++ " is not in the queue; admit the group it belongs to first, " ++
      "or it may already have departed"
  | .groupNotQueued g =>
    "group " ++ reprI g ++ " is not in the queue; it was never admitted, " ++
      "or it has already departed"

theorem contains_listed {part : String} {parts : List String} (h : part ∈ parts)
    (opening closing : String) : (listed opening closing parts).contains part = true := by
  rw [listed]
  apply contains_append_left
  apply contains_append_right
  exact contains_intercalate h ", "

/-- The elements of an iterable when all of them can be hashed. -/
def hashAll : List (Value M) → Option (List M)
  | [] => some []
  | .hashable m :: rest => (hashAll rest).map (m :: ·)
  | .unhashable _ :: _ => none

theorem hashAll_eq_some {vs : List (Value M)} {ms : List M} :
    hashAll vs = some ms ↔ vs = ms.map .hashable := by
  induction vs generalizing ms with
  | nil => cases ms <;> simp [hashAll]
  | cons v vs ih =>
    cases v with
    | unhashable t => cases ms <;> simp [hashAll]
    | hashable m => cases ms <;> simp [hashAll, ih, and_comm]

theorem hashAll_eq_none {vs : List (Value M)} :
    hashAll vs = none ↔ ∃ v ∈ vs, isHashable v = false := by
  induction vs with
  | nil => simp [hashAll]
  | cons v vs ih => cases v <;> simp [hashAll, isHashable, ih]

theorem ne_nil_of_hashAll {vs : List (Value M)} {ms : List M} (hne : vs ≠ [])
    (h : hashAll vs = some ms) : ms ≠ [] := by
  rintro rfl
  exact hne (hashAll_eq_some.mp h)

variable [DecidableEq M]

/-- The loop that collects `duplicates`, with the members `seen` so far. -/
def duplicatesFrom : List M → List M → List M → List M
  | _, duplicates, [] => duplicates
  | seen, duplicates, m :: rest =>
    duplicatesFrom (m :: seen)
      (if m ∈ seen ∧ m ∉ duplicates then duplicates ++ [m] else duplicates) rest

def duplicatesOf (members : List M) : List M := duplicatesFrom [] [] members

end Tito
