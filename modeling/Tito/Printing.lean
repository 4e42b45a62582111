import Tito.Consistent
import Tito.Queue

namespace Tito

open Lib Lib.Text

variable {I M : Type}

section

variable [DecidableEq M]

/-- `Group.__repr__`, as far as it holds the lock. -/
def groupRepr (h : Handle) : Py I M (Nat × List M) := do
  let readyCount := (← deref h).readyCount
  let waiting := (← deref h).waitingMembers
  return (readyCount, waiting)

end

/-- The sum over the waiting groups in `TitoQueue.__repr__`. -/
def countReady : List Handle → Py I M Nat
  | [] => return 0
  | group :: rest => do
    let isReady := (← deref group).isReady
    return isReady.toNat + (← countReady rest)

/-- `TitoQueue.__repr__`, as far as it holds the lock. -/
def queueRepr : Py I M (Nat × Nat) := do
  let waiting := (← get).groups.length
  let ready ← countReady (← get).groups.values
  return (waiting, ready)

/-- The text of `Group.__repr__`, for given `repr` functions of ids and members. -/
def Group.text (reprI : Value I → String) (reprM : M → String) (g : Group I M) :
    Nat × List M → String
  | (readyCount, waiting) =>
    let waitingNote :=
      if waiting ≠ [] then ", waiting on " ++ listed "[" "]" (waiting.map reprM) else ""
    "Group(group_id=" ++ reprI g.groupId ++ ", members=" ++
      listed "[" "]" (g.members.map reprM) ++ ", ready=" ++ toString readyCount ++ "/" ++
      toString g.members.length ++ waitingNote ++ ")"

example :
    (Group.fresh (.hashable "'party-1'") ["'ann'", "'bob'"] 0 (by decide) (by decide)).text
      (fun | .hashable text => text | .unhashable text => text) id (1, ["'bob'"]) =
      "Group(group_id='party-1', members=['ann', 'bob'], ready=1/2, waiting on ['bob'])" := by
  decide

/-- The text of `TitoQueue.__repr__`. -/
def World.text (w : World I M) : Nat × Nat → String
  | (waiting, ready) =>
    "TitoQueue(strict_order=" ++ (if w.strictOrder then "True" else "False") ++ ", groups=" ++
      toString waiting ++ ", ready=" ++ toString ready ++ ")"

/-- `Group.__repr__`. -/
def groupStr [DecidableEq M] (reprI : Value I → String) (reprM : M → String) (h : Handle) :
    Py I M String := do
  let shown ← groupRepr h
  return (← deref h).text reprI reprM shown

/-- `TitoQueue.__repr__`. -/
def queueStr : Py I M String := do
  let shown ← queueRepr
  return (← get).text shown

theorem Group.text_contains {reprI : Value I → String} {reprM : M → String} (g : Group I M)
    {waiting : List M} {m : M} (hm : m ∈ waiting) (readyCount : Nat) :
    (g.text reprI reprM (readyCount, waiting)).contains (reprM m) = true := by
  have hne : waiting ≠ [] := List.ne_nil_of_mem hm
  have hnote :
      (", waiting on " ++ listed "[" "]" (waiting.map reprM)).contains (reprM m) = true := by
    apply contains_append_right
    exact contains_listed (List.mem_map_of_mem hm) "[" "]"
  unfold Group.text
  simp only [ne_eq, hne, not_false_eq_true, if_true]
  refine contains_append_left ?_ ")"
  exact contains_append_right _ hnote

theorem groupRepr_run [DecidableEq M] {w : World I M} {h : Handle} {g : Group I M}
    (hg : w.objects[h]? = some g) :
    (groupRepr h).run w = .ok (g.readyCount, g.waitingMembers) w := by
  simp [groupRepr, deref_run hg]

theorem groupStr_run [DecidableEq M] {reprI : Value I → String} {reprM : M → String}
    {w : World I M} {h : Handle} {g : Group I M} (hg : w.objects[h]? = some g) :
    (groupStr reprI reprM h).run w =
      .ok (g.text reprI reprM (g.readyCount, g.waitingMembers)) w := by
  simp [groupStr, groupRepr_run hg, deref_run hg]

/-- How many of the groups at the handles are complete. -/
def World.readyAmong (w : World I M) (hs : List Handle) : Nat :=
  hs.countP fun h => (w.objects[h]?.map Group.isReady).getD false

theorem countReady_run {w : World I M} {hs : List Handle}
    (hhs : ∀ h ∈ hs, ∃ g, w.objects[h]? = some g) :
    (countReady hs).run w = .ok (w.readyAmong hs) w := by
  induction hs with
  | nil => rfl
  | cons h hs ih =>
    obtain ⟨g, hg⟩ := hhs h List.mem_cons_self
    have hrest := ih fun k hk => hhs k (List.mem_cons_of_mem h hk)
    have hcount : w.readyAmong (h :: hs) = g.isReady.toNat + w.readyAmong hs := by
      rw [World.readyAmong, List.countP_cons, hg, Nat.add_comm]
      cases hr : g.isReady <;> simp [hr, World.readyAmong]
    rw [hcount]
    simp [countReady, deref_run hg, hrest]

theorem keeps_countReady {R : World I M → World I M → Prop} (hR : Effects.Frame R)
    (hs : List Handle) : Effects.Keeps R (countReady hs) := by
  induction hs with
  | nil => exact hR.pure 0
  | cons h hs ih => exact hR.bind (keeps_deref hR h) fun g => hR.bind ih fun n => hR.pure _

variable [DecidableEq I] [DecidableEq M]

theorem queueRepr_run {w : World I M} (hw : Registered w) :
    queueRepr.run w = .ok (w.groups.length, w.readyAmong w.groups.values) w := by
  have hwaiting : ∀ h ∈ w.groups.values, ∃ g, w.objects[h]? = some g := by
    intro h hh
    obtain ⟨_, g, _, hg, _⟩ := hw.waiting hh
    exact ⟨g, hg⟩
  simp [queueRepr, countReady_run hwaiting]

theorem queueStr_run {w : World I M} (hw : Registered w) :
    queueStr.run w = .ok (w.text (w.groups.length, w.readyAmong w.groups.values)) w := by
  simp [queueStr, queueRepr_run hw]

end Tito
