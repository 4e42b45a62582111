import Tito.Operations
import Mathlib.Logic.Function.Basic

namespace Tito

open Lib

/-- The reference queue: the arrival-ordered list of waiting groups with their flags, and
nothing to look anything up by. Groups that left are remembered for the callers that still
hold them. -/
@[ext]
structure PlainQueue (I M : Type) where
  strictOrder : Bool
  waiting : List (Entry I M)
  departed : Handle → Option (Entry I M)
  arrivals : Nat

variable {I M : Type}

def Entry.members (e : Entry I M) : List M := e.flags.map Prod.fst

def Entry.ready (e : Entry I M) : Bool := e.flags.all Prod.snd

def Entry.mark [DecidableEq M] (e : Entry I M) (m : M) : Entry I M :=
  { e with flags := e.flags.map fun f => if f.1 = m then (m, true) else f }

def Entry.markAt [DecidableEq M] (h : Handle) (m : M) (e : Entry I M) : Entry I M :=
  if e.handle = h then e.mark m else e

def Value.toOption {α : Type} : Value α → Option α
  | .hashable a => some a
  | .unhashable _ => none

namespace PlainQueue

def init (strictOrder : Bool) : PlainQueue I M := ⟨strictOrder, [], fun _ => none, 0⟩

def look (q : PlainQueue I M) (h : Handle) : Option (Entry I M) :=
  (q.waiting.find? fun e => e.handle = h).or (q.departed h)

def peek (q : PlainQueue I M) : Option (Entry I M) :=
  if q.strictOrder then q.waiting.head?.filter Entry.ready else q.waiting.find? Entry.ready

def remove (q : PlainQueue I M) (e : Entry I M) : PlainQueue I M :=
  { q with
    waiting := q.waiting.filter fun e' => decide (e'.handle ≠ e.handle)
    departed := Function.update q.departed e.handle (some e) }

def releaseUpTo : Nat → PlainQueue I M → List (Entry I M) × PlainQueue I M
  | 0, q => ([], q)
  | n + 1, q =>
    match q.peek with
    | none => ([], q)
    | some e => (e :: (releaseUpTo n (q.remove e)).1, (releaseUpTo n (q.remove e)).2)

def clear (q : PlainQueue I M) : PlainQueue I M := { q with waiting := [], departed := q.look }

section

variable [DecidableEq M]

def groupOf (q : PlainQueue I M) (m : M) : Option (Entry I M) :=
  q.waiting.find? fun e => decide (m ∈ e.members)

def mark (q : PlainQueue I M) (h : Handle) (m : M) : PlainQueue I M :=
  { q with
    waiting := q.waiting.map (Entry.markAt h m)
    departed := fun k => (q.departed k).map (Entry.markAt h m) }

def groupMarkReady (q : PlainQueue I M) (h : Handle) (member : Value M) :
    Outcome I M × PlainQueue I M :=
  match q.look h with
  | none => (.error .noObject, q)
  | some e =>
    match member with
    | .unhashable t => (.error (.tito (.notAMember (.unhashable t) e.groupId e.members)), q)
    | .hashable m =>
      if m ∈ e.members then (.ok (.bool (e.mark m).ready), q.mark h m)
      else (.error (.tito (.notAMember (.hashable m) e.groupId e.members)), q)

def markReady (q : PlainQueue I M) (member : Value M) : Outcome I M × PlainQueue I M :=
  match member.toOption.bind q.groupOf with
  | none => (.error (.tito (.memberNotQueued member)), q)
  | some e => q.groupMarkReady e.handle member

end

section

variable [DecidableEq I]

def find (q : PlainQueue I M) (groupId : Value I) : Option (Entry I M) :=
  match groupId with
  | .unhashable _ => none
  | .hashable id => q.waiting.find? fun e => e.groupId = .hashable id

def cancel (q : PlainQueue I M) (groupId : Value I) : Outcome I M × PlainQueue I M :=
  match q.find groupId with
  | none => (.error (.tito (.groupNotQueued groupId)), q)
  | some e => (.ok (.group e), q.remove e)

end

variable [DecidableEq I] [DecidableEq M]

def markGroupReady (q : PlainQueue I M) (groupId : Value I) : Outcome I M × PlainQueue I M :=
  match q.find groupId with
  | none => (.error (.tito (.groupNotQueued groupId)), q)
  | some e => (.ok (.bool true), e.members.foldl (fun q m => q.mark e.handle m) q)

/-- Why `admit` refuses its arguments, if it does. -/
def refusal (q : PlainQueue I M) (groupId : Value I) : Members M → Option (PyError I M)
  | .text t => some (.tito (.textMembers groupId t))
  | .notIterable => some .typeError
  | .iterable elements =>
    let members := elements.filterMap Value.toOption
    let queued := members.filter fun m => (q.groupOf m).isSome
    if elements = [] then some (.tito (.noMembers groupId))
    else if ∃ v ∈ elements, isHashable v = false then
      some (.tito (.unhashableMembers groupId (elements.filter fun v => !isHashable v)))
    else if ¬ members.Nodup then
      some (.tito (.duplicateMembers groupId (duplicatesOf members)))
    else match groupId with
      | .unhashable t => some (.tito (.unhashableId (.unhashable t)))
      | .hashable id =>
        if ∃ e ∈ q.waiting, e.groupId = .hashable id then some (.tito (.idInQueue id))
        else if queued ≠ [] then
          some (.tito (.membersInQueue queued (queued.filterMap fun m =>
            (q.groupOf m).bind fun e => e.groupId.toOption.map fun id => (m, id))))
        else none

def admitGroup (q : PlainQueue I M) (groupId : Value I) (members : Members M) :
    Outcome I M × PlainQueue I M :=
  match q.refusal groupId members, members with
  | none, .iterable elements =>
    let e : Entry I M :=
      ⟨q.arrivals, groupId, (elements.filterMap Value.toOption).map fun m => (m, false)⟩
    (.ok (.group e), { q with waiting := q.waiting ++ [e], arrivals := q.arrivals + 1 })
  | some e, _ => (.error e, q)
  | none, _ => (.error .typeError, q)

def shown (o : Option (Entry I M)) : Outcome I M := .ok (o.elim .none .group)

def step : Mealy.Machine (PlainQueue I M) (Op I M) (Outcome I M) := fun q op =>
  match op with
  | .admitGroup groupId members => q.admitGroup groupId members
  | .markReady member => q.markReady member
  | .markGroupReady groupId => q.markGroupReady groupId
  | .groupOf member => (shown (member.toOption.bind q.groupOf), q)
  | .cancel groupId => q.cancel groupId
  | .clear => (.ok (.groups q.waiting), q.clear)
  | .peek => (shown q.peek, q)
  | .release => (shown q.peek, q.peek.elim q q.remove)
  | .releaseAll =>
    (.ok (.groups (q.releaseUpTo q.waiting.length).1), (q.releaseUpTo q.waiting.length).2)
  | .groups => (.ok (.groups q.waiting), q)
  | .len => (.ok (.number q.waiting.length), q)
  | .contains member => (.ok (.bool (member.toOption.bind q.groupOf).isSome), q)
  | .groupMarkReady group member => q.groupMarkReady group member

def arrival (q : PlainQueue I M) (id : I) (ms : List M) : Entry I M :=
  ⟨q.arrivals, .hashable id, ms.map fun m => (m, false)⟩

omit [DecidableEq I] [DecidableEq M] in
theorem arrival_members (q : PlainQueue I M) (id : I) (ms : List M) :
    (q.arrival id ms).members = ms := by
  rw [Entry.members, arrival, List.map_map]
  exact List.map_id ms

def join (q : PlainQueue I M) (e : Entry I M) : PlainQueue I M :=
  { q with waiting := q.waiting ++ [e], arrivals := q.arrivals + 1 }

/-- The line takes a group in when neither its id nor any of its members is in it. -/
structure Accepts (q : PlainQueue I M) (id : I) (ms : List M) : Prop where
  ne_nil : ms ≠ []
  nodup : ms.Nodup
  id_free : ∀ e ∈ q.waiting, e.groupId ≠ .hashable id
  members_free : ∀ m ∈ ms, q.groupOf m = none

omit [DecidableEq I] [DecidableEq M] in
theorem filterMap_toOption_map_hashable (ms : List M) :
    (ms.map Value.hashable).filterMap Value.toOption = ms := by
  rw [List.filterMap_map]
  exact List.filterMap_some

theorem refusal_map_hashable (q : PlainQueue I M) (id : Value I) {ms : List M} (hne : ms ≠ []) :
    q.refusal id (.iterable (ms.map .hashable)) =
      if ¬ ms.Nodup then some (.tito (.duplicateMembers id (duplicatesOf ms)))
      else match id with
        | .unhashable t => some (.tito (.unhashableId (.unhashable t)))
        | .hashable i =>
          let queued := ms.filter fun m => (q.groupOf m).isSome
          if ∃ e ∈ q.waiting, e.groupId = .hashable i then some (.tito (.idInQueue i))
          else if queued ≠ [] then
            some (.tito (.membersInQueue queued (queued.filterMap fun m =>
              (q.groupOf m).bind fun e => e.groupId.toOption.map fun id => (m, id))))
          else none := by
  simp only [refusal, filterMap_toOption_map_hashable, List.map_eq_nil_iff, hne, if_false,
    List.mem_map, exists_exists_and_eq_and, isHashable, Bool.true_eq_false, and_false, exists_false]

theorem admit_cases (q : PlainQueue I M) (groupId : Value I) (members : Members M) :
    (∃ e, q.admitGroup groupId members = (.error e, q)) ∨
      ∃ id ms, groupId = .hashable id ∧ members = .iterable (ms.map .hashable) ∧
        q.Accepts id ms ∧
        q.admitGroup groupId members =
          (.ok (.group (q.arrival id ms)), q.join (q.arrival id ms)) := by
  cases hr : q.refusal groupId members with
  | some e => exact Or.inl ⟨e, by simp only [admitGroup, hr]⟩
  | none =>
    right
    cases members with
    | text t => cases hr
    | notIterable => cases hr
    | iterable vs =>
      have hvs : vs ≠ [] := by
        rintro rfl
        cases hr
      have hhash : ¬ ∃ v ∈ vs, isHashable v = false := by
        intro hun
        simp [refusal, hvs, hun] at hr
      obtain ⟨ms, hms⟩ := Option.ne_none_iff_exists'.mp (mt hashAll_eq_none.mp hhash)
      obtain rfl := hashAll_eq_some.mp hms
      have hne := ne_nil_of_hashAll hvs hms
      have hadm : q.admitGroup groupId (.iterable (ms.map .hashable)) =
          (.ok (.group ⟨q.arrivals, groupId, ms.map fun m => (m, false)⟩),
            q.join ⟨q.arrivals, groupId, ms.map fun m => (m, false)⟩) := by
        simp only [admitGroup, hr, filterMap_toOption_map_hashable]
        rfl
      rw [refusal_map_hashable q groupId hne] at hr
      split at hr
      · cases hr
      rename_i hnd
      cases groupId with
      | unhashable t => cases hr
      | hashable id =>
        dsimp only at hr
        split at hr
        · cases hr
        rename_i hid
        split at hr
        · cases hr
        rename_i hq
        refine ⟨id, ms, rfl, rfl, ⟨hne, not_not.mp hnd, ?_, ?_⟩, hadm⟩
        · exact fun e he hk => hid ⟨e, he, hk⟩
        · simpa using hq

end PlainQueue

end Tito
