import Tito.Locked

namespace Tito.Locked

open Lib Lib.Monitor Lib.Monitor.Prog

variable {I M : Type}

theorem looking_read {α : Type} (field : World I M → α) : Code.Looking (read field) :=
  ⟨fun _ => rfl, fun _ => trivial⟩

theorem block_field {α β : Type} {x : Py I M α} (f : α → β) :
    Block (locked do return f (← access x) : Method I M β) :=
  block (inner_bind (inner_access _) fun _ => inner_pure _)

theorem block_isReady (h : Handle) : Block (isReady (I := I) (M := M) h) :=
  block_field _

theorem inner_countReady (hs : List Handle) : Code.Inner (countReady (I := I) (M := M) hs) := by
  induction hs with
  | nil => exact inner_pure _
  | cons h hs ih =>
    exact inner_bind (block_isReady h).inner fun _ => inner_bind ih fun _ => inner_pure _

theorem block_queueRepr : Block (queueRepr (I := I) (M := M)) :=
  block (inner_bind (inner_read _) fun _ => inner_bind (inner_read _) fun _ =>
    inner_bind (inner_countReady _) fun _ => inner_pure _)

theorem inner_noteReady (h : Handle) : Code.Inner (noteReady (I := I) (M := M) h) := by
  refine inner_bind (inner_access _) fun g => inner_bind (inner_read _) fun readyGroups => ?_
  split
  · exact inner_pure _
  · exact inner_bind (inner_access _) fun _ => inner_access _

theorem inner_compactReadyHeap : Code.Inner (compactReadyHeap (I := I) (M := M)) := by
  refine inner_bind (inner_read _) fun heap => inner_bind (inner_read _) fun readyGroups => ?_
  split
  · exact inner_pure _
  · exact inner_bind (inner_access _) fun _ => inner_access _

theorem inner_peekLoop (rounds : Nat) : Code.Inner (peekLoop (I := I) (M := M) rounds) := by
  induction rounds with
  | zero => exact inner_pure _
  | succ rounds ih =>
    refine inner_bind (inner_read _) fun heap => ?_
    split
    · exact inner_pure _
    · refine inner_bind (inner_read _) fun readyGroups => ?_
      split
      · exact inner_pure _
      · exact inner_bind (inner_access _) fun _ => ih

theorem block_peek : Block (peek (I := I) (M := M)) := by
  refine block (inner_bind (inner_read _) fun strictOrder => ?_)
  split
  · refine inner_bind (inner_read _) fun groups => ?_
    split
    · exact inner_pure _
    · refine inner_bind (block_isReady _).inner fun b => ?_
      split
      · exact inner_pure _
      · exact inner_pure _
  · exact inner_bind (inner_read _) fun heap => inner_peekLoop _

variable [DecidableEq M]

theorem block_groupRepr (h : Handle) : Block (groupRepr (I := I) (M := M) h) :=
  block (inner_bind (inner_access _) fun _ =>
    inner_bind (block_field Group.waitingMembers).inner fun _ => inner_pure _)

theorem block_groupMarkReady (h : Handle) (member : Value M) :
    Block (groupMarkReady (I := I) h member) := by
  refine block (inner_bind (inner_access _) fun group => ?_)
  split
  · exact inner_raise _
  · refine inner_bind (inner_access _) fun _ => ?_
    split
    · exact inner_pure _
    · exact inner_bind (inner_noteReady h) fun _ => inner_pure _

variable [DecidableEq I]

theorem inner_remove (h : Handle) : Code.Inner (remove (I := I) (M := M) h) := by
  refine inner_bind (inner_access _) fun group => inner_bind (inner_access _) fun _ =>
    inner_bind (inner_forM (fun _ => inner_access _) _) fun _ =>
    inner_bind (inner_access _) fun _ =>
    inner_bind (inner_access _) fun b => ?_
  split
  · exact inner_compactReadyHeap
  · exact inner_pure _

omit [DecidableEq M] in
theorem inner_find (id : Value I) : Code.Inner (find (M := M) id) := by
  cases id with
  | unhashable t => exact inner_pure _
  | hashable id => exact inner_bind (inner_read _) fun groups => inner_pure _

theorem guarded_admitGroup (groupId : Value I) (members : Members M) :
    Code.Guarded (admitGroup groupId members) := by
  rw [admitGroup]
  split
  · trivial
  · refine Block.guarded (block (inner_bind (inner_read _) fun groups => ?_))
    split
    · exact inner_raise _
    · refine inner_bind (inner_read _) fun memberIndex => ?_
      dsimp only
      split
      · exact inner_raise _
      · exact inner_bind (inner_read _) fun sequence => inner_bind (inner_access _) fun h =>
          inner_bind (inner_access _) fun _ => inner_bind (inner_access _) fun _ =>
          inner_bind (inner_forM (fun _ => inner_access _) _) fun _ =>
          inner_bind (inner_read _) fun callback =>
          inner_bind (inner_access _) fun _ => inner_pure h

theorem block_groupOf (member : Value M) : Block (groupOf (I := I) member) := by
  refine block ?_
  split
  · exact inner_pure _
  · refine inner_bind (inner_read _) fun memberIndex => ?_
    split
    · exact inner_pure _
    · refine inner_bind (inner_read _) fun groups => ?_
      split
      · exact inner_pure _
      · exact inner_raise _

theorem block_markReady (member : Value M) : Block (markReady (I := I) member) := by
  refine block (inner_bind (block_groupOf member).inner fun o => ?_)
  split
  · exact inner_raise _
  · exact (block_groupMarkReady _ member).inner

theorem block_markGroupReady (groupId : Value I) : Block (markGroupReady (M := M) groupId) := by
  refine block (inner_bind (inner_find groupId) fun o => ?_)
  split
  · exact inner_raise _
  · exact inner_bind (inner_access _) fun group => inner_bind
      (inner_forM (fun m => inner_bind (block_groupMarkReady _ _).inner fun _ => inner_pure _) _)
      fun _ => inner_pure _

theorem block_cancel (groupId : Value I) : Block (cancel (M := M) groupId) := by
  refine block (inner_bind (inner_find groupId) fun o => ?_)
  split
  · exact inner_raise _
  · exact inner_bind (inner_remove _) fun _ => inner_pure _

omit [DecidableEq I] [DecidableEq M] in
theorem block_clear : Block (clear (I := I) (M := M)) :=
  block (inner_bind (inner_read _) fun _ =>
    inner_bind (inner_forM (fun _ => inner_access _) _) fun _ =>
    inner_bind (inner_access _) fun _ =>
    inner_bind (inner_access _) fun _ => inner_bind (inner_access _) fun _ =>
    inner_bind (inner_access _) fun _ => inner_pure _)

theorem block_release : Block (release (I := I) (M := M)) := by
  refine block (inner_bind block_peek.inner fun o => ?_)
  split
  · exact inner_pure _
  · exact inner_bind (inner_remove _) fun _ => inner_pure _

theorem inner_releaseAllLoop (rounds : Nat) (released : List Handle) :
    Code.Inner (releaseAllLoop (I := I) (M := M) rounds released) := by
  induction rounds generalizing released with
  | zero => exact inner_pure _
  | succ rounds ih =>
    refine inner_bind block_release.inner fun o => ?_
    split
    · exact inner_pure _
    · exact ih _

theorem block_releaseAll : Block (releaseAll (I := I) (M := M)) :=
  block (inner_bind (inner_read _) fun _ => inner_releaseAllLoop _ _)

end Tito.Locked
