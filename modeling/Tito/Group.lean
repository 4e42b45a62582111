import Tito.Values

namespace Tito

open Lib

/-- The completion callback built by `_make_ready_callback`. Calling it is `_note_ready` on
the one queue, which outlives every call made on it. -/
inductive ReadyCallback where
  | noteReady
  deriving DecidableEq

/-- A set of members that entered together. The member tuple, the flag dictionary and the
counter are kept separately by the source, and agree in every group that can be built. -/
@[ext]
structure Group (I M : Type) where
  groupId : Value I
  members : List M
  ready : Dict M Bool
  readyCount : Nat
  sequence : Nat
  onReady : Option ReadyCallback
  keys_ready : ready.keys = members
  count_ready : readyCount = ready.values.count true
  members_ne_nil : members ≠ []

variable {I M : Type}

namespace Group

theorem members_nodup (g : Group I M) : g.members.Nodup := g.keys_ready ▸ g.ready.nodup

theorem length_values_ready (g : Group I M) : g.ready.values.length = g.members.length := by
  rw [← g.keys_ready, Dict.length_values, Dict.length_keys]

def isReady (g : Group I M) : Bool := g.readyCount == g.members.length

theorem isReady_iff (g : Group I M) : g.isReady = true ↔ ∀ e ∈ g.ready.entries, e.2 = true := by
  rw [isReady, beq_iff_eq, g.count_ready, ← g.length_values_ready, List.count_eq_length]
  simp only [Dict.values, List.mem_map, forall_exists_index, and_imp, forall_apply_eq_imp_iff₂]
  exact forall₂_congr fun _ _ => eq_comm

variable [DecidableEq M]

def readyMembers (g : Group I M) : List M := g.members.filter fun m => g.ready.get? m = some true

def waitingMembers (g : Group I M) : List M := g.members.filter fun m => g.ready.get? m = some false

/-- A group as `__init__` leaves it, for members that passed its checks. -/
def fresh (groupId : Value I) (members : List M) (sequence : Nat)
    (hne : members ≠ []) (hnd : members.Nodup) : Group I M where
  groupId := groupId
  members := members
  ready := Dict.fromkeys members false
  readyCount := 0
  sequence := sequence
  onReady := none
  keys_ready := by
    rw [Dict.keys, Dict.entries_fromkeys hnd, List.map_map]
    exact List.map_id members
  count_ready := by
    rw [Dict.values, Dict.entries_fromkeys hnd, List.map_map]
    exact (List.count_eq_zero.mpr (by simp)).symm
  members_ne_nil := hne

/-- `Group.__init__`. -/
def init (groupId : Value I) (members : Members M) (sequence : Nat) :
    Except (PyError I M) (Group I M) :=
  match members with
  | .text t => .error (.tito (.textMembers groupId t))
  | .notIterable => .error .typeError
  | .iterable elements =>
    if he : elements = [] then .error (.tito (.noMembers groupId))
    else match hm : hashAll elements with
      | none =>
        .error (.tito (.unhashableMembers groupId (elements.filter fun v => !isHashable v)))
      | some memberList =>
        if hlen : (Dict.fromkeys memberList false).length = memberList.length then
          .ok (fresh groupId memberList sequence (ne_nil_of_hashAll he hm)
            ((Dict.length_fromkeys_iff false).mp hlen))
        else .error (.tito (.duplicateMembers groupId (duplicatesOf memberList)))

/-- `self._ready[member] = True; self._ready_count += 1`. -/
def flag (g : Group I M) (m : M) (h : g.ready.get? m = some false) : Group I M :=
  { g with
    ready := g.ready.set m true
    readyCount := g.readyCount + 1
    keys_ready := by rw [Dict.keys_set_of_mem (Dict.mem_keys_iff.mpr ⟨false, h⟩), g.keys_ready]
    count_ready := by rw [Dict.count_values_set h (by decide), g.count_ready] }

/-- What one call of `Group.mark_ready` on a member does to the group: the group it leaves,
the value it returns, and the callback it runs before it returns. -/
structure Marked (I M : Type) where
  group : Group I M
  result : Bool
  call : Option ReadyCallback

/-- `Group.mark_ready`. -/
def markReady (g : Group I M) (member : Value M) : Except (PyError I M) (Marked I M) :=
  match member with
  | .unhashable t => .error (.tito (.notAMember (.unhashable t) g.groupId g.members))
  | .hashable m =>
    match h : g.ready.get? m with
    | none => .error (.tito (.notAMember (.hashable m) g.groupId g.members))
    | some true => .ok ⟨g, g.readyCount == g.members.length, none⟩
    | some false =>
      let g' := g.flag m h
      if g'.readyCount != g'.members.length then .ok ⟨g', false, none⟩
      else .ok ⟨g', true, g'.onReady⟩

end Group

end Tito
