import Tito.Concurrent
import Tito.Priced
import Tito.Lib.Coverage

namespace Tito.Priced

open Lib Lib.Heapq Lib.Effects Lib.Cost Lib.Monitor

variable {I M : Type} {w : World I M}

theorem moves_read {α β : Type} (field : World I M → α) (f : α → Locked.Method I M β) :
    (Locked.read field >>= f).moves w = (f (field w)).moves w + 1 :=
  Prog.moves_access_bind f rfl

theorem moves_write {β : Type} (write : World I M → World I M)
    (f : PUnit → Locked.Method I M β) :
    (Prog.access (modify write) >>= f).moves w = (f ⟨⟩).moves (write w) + 1 :=
  Prog.moves_access_bind f rfl

theorem covered_isReady (h : Handle) : Covered 0 (Locked.isReady h) (isReady h) w := by
  apply Covered.locked
  apply Covered.tick (Nat.le_refl 1)
  apply Covered.access_bind
  intro g t _
  apply Covered.pure

theorem covered_noteReady (h : Handle) : Covered 0 (Locked.noteReady h) (noteReady h) w := by
  apply Covered.spare
  apply Covered.access_bind
  intro g t _
  apply Covered.charge_bind (t := t) (Nat.le_refl 1) rfl rfl
  split
  · apply Covered.pure
  · apply Covered.access_bind
    intro _ u _
    exact Covered.charge _ (Nat.le_add_left 1 _)

/-- The statement that calls `_compact_ready_heap` makes up for one of the two looks of its `if`. -/
theorem covered_compactReadyHeap : Covered 0 (Locked.compactReadyHeap (I := I) (M := M))
    (tick 1 >>= fun _ => compactReadyHeap) w := by
  apply Covered.look (a := w.readyHeap) rfl
  apply Covered.tick (Nat.le_refl 1)
  apply Covered.charge_bind (a := w.readyGroups) (t := w) (Nat.le_refl 1) rfl rfl
  split
  · apply Covered.pure
  · rw [Covered, moves_write, Prog.moves_access]
    exact Nat.le_add_left 2 _

theorem covered_peekLoop (rounds : Nat) :
    Covered 0 (Locked.peekLoop rounds) (charge peekLoopSteps (modifyGet peekLoop)) w := by
  suffices h : (Locked.peekLoop rounds).moves w ≤ peekLoopSteps w from h
  induction rounds generalizing w with
  | zero => exact Nat.zero_le _
  | succ rounds ih =>
    rw [Locked.peekLoop, moves_read]
    cases hheap : w.readyHeap with
    | nil =>
      rw [peekLoopSteps_nil hheap]
      exact Nat.le_succ 1
    | cons top rest =>
      dsimp only
      rw [moves_read]
      cases hready : w.readyGroups.get? top with
      | some group =>
        rw [peekLoopSteps_live hheap hready]
        exact Nat.le_add_left 2 2
      | none =>
        rw [peekLoopSteps_stale hheap hready]
        dsimp only
        rw [moves_write]
        have hrest := ih (w := { w with readyHeap := heappop w.readyHeap }.wrote (.popStale top))
        omega

theorem covered_peek : Covered 0 (Locked.peek (I := I) (M := M)) peek w := by
  apply Covered.locked
  apply Covered.tick (Nat.le_refl 1)
  apply Covered.charge_bind (a := w.strictOrder) (t := w) (Nat.le_refl 1) rfl rfl
  split
  · apply Covered.look (a := w.groups) rfl
    apply Covered.tick (Nat.le_succ 1)
    cases w.groups.values.head? with
    | none => apply Covered.pure
    | some head =>
      apply Covered.bind (covered_isReady head)
      · rw [Locked.serial_isReady, unmetered_isReady]
      · intro ready t _
        apply Covered.spare
        cases ready with
        | true => apply Covered.pure
        | false => apply Covered.pure
  · apply Covered.look (a := w.readyHeap) rfl
    apply Covered.tick (Nat.le_succ 1)
    apply covered_peekLoop

theorem covered_waitingGroups :
    Covered 0 (Locked.waitingGroups (I := I) (M := M)) waitingGroups w := by
  apply Covered.locked
  apply Covered.tick (Nat.le_refl 1)
  apply Covered.charge_bind (a := w.groups) (t := w) (Nat.le_add_left 1 _) rfl rfl
  apply Covered.pure

theorem covered_clear : Covered 0 (Locked.clear (I := I) (M := M)) clear w := by
  apply Covered.locked
  apply Covered.tick (Nat.le_refl 1)
  apply Covered.charge_bind (a := w.groups) (t := w) (Nat.le_add_left 1 _) rfl rfl
  apply Covered.forM_access_bind
  intro t
  apply Covered.spare
  refine Covered.paid_bind (Nat.le_add_left 1 _) fun _ u _ => ?_
  refine Covered.paid_bind (Nat.le_add_left 1 _) fun _ v _ => ?_
  refine Covered.paid_bind (Nat.le_add_left 1 _) fun _ x _ => ?_
  refine Covered.paid_bind (Nat.le_add_left 1 _) fun _ y _ => ?_
  apply Covered.pure

theorem covered_len : Covered 0 (Locked.len (I := I) (M := M)) len w := by
  have hlook : 1 ≤ steps (len (I := I) (M := M)) w := le_steps_bind (once get) _ w
  rw [Locked.len, Locked.read, Covered, Prog.moves_access]
  exact hlook

variable [DecidableEq M]

theorem covered_readyMembers (h : Handle) :
    Covered 0 (Locked.readyMembers (I := I) (M := M) h) (readyMembers h) w := by
  apply Covered.locked
  apply Covered.tick (Nat.le_succ 1)
  apply Covered.access_bind
  intro g t _
  apply Covered.pure

theorem covered_waitingMembers (h : Handle) :
    Covered 0 (Locked.waitingMembers (I := I) (M := M) h) (waitingMembers h) w := by
  apply Covered.locked
  apply Covered.tick (Nat.le_succ 1)
  apply Covered.access_bind
  intro g t _
  apply Covered.pure

theorem one_le_markSteps (g : Group I M) (member : Value M) : 1 ≤ markSteps g member := by
  cases member with
  | unhashable t => exact Nat.le_add_left 1 2
  | hashable m =>
    rw [markSteps]
    split
    · exact Nat.le_succ 1
    · exact Nat.le_succ 1
    · split
      · exact Nat.le_add_left 1 5
      · exact Nat.le_add_left 1 4

theorem covered_groupMarkReady (h : Handle) (member : Value M) :
    Covered 0 (Locked.groupMarkReady h member) (groupMarkReady h member) w := by
  apply Covered.locked
  apply Covered.tick (Nat.le_refl 1)
  apply Covered.access_bind
  intro g t _
  cases g.markReady member with
  | error e => apply Covered.raise
  | ok marked =>
    apply Covered.free_bind (one_le_markSteps g member)
    intro _ u _
    cases marked.call with
    | none => apply Covered.pure
    | some callback =>
      apply Covered.spare
      apply Covered.bind (covered_noteReady h)
      · rw [Locked.serial_noteReady, unmetered_noteReady]
      · intro _ v _
        apply Covered.pure

theorem covered_contains (member : Value M) :
    Covered 0 (Locked.contains (I := I) member) (contains member) w := by
  cases member with
  | unhashable t => apply Covered.pure
  | hashable m =>
    apply Covered.charge_bind (a := w.memberIndex) (t := w) (Nat.le_refl 1) rfl rfl
    apply Covered.pure

variable [DecidableEq I]

/-- The statement that calls `_remove` makes up for its look at `group_id`. -/
theorem covered_remove {n : Nat} (hn : 1 ≤ n) (h : Handle) :
    Covered 0 (Locked.remove (I := I) (M := M) h) (tick n >>= fun _ => remove h) w := by
  apply Covered.free_bind hn
  intro group t _
  apply Covered.access_bind
  intro _ u _
  apply Covered.spare
  apply Covered.forM_access_bind
  intro v
  apply Covered.spare
  apply Covered.access_bind
  intro _ x _
  apply Covered.spare
  apply Covered.access_bind
  intro popped y _
  cases popped with
  | true => exact covered_compactReadyHeap
  | false => apply Covered.pure

omit [DecidableEq M] in
theorem covered_find (id : Value I) : Covered 0 (Locked.find (M := M) id) (find id) w := by
  cases id with
  | unhashable t => apply Covered.pure
  | hashable id =>
    apply Covered.charge_bind (a := w.groups) (t := w) (Nat.le_refl 1) rfl rfl
    apply Covered.pure

theorem covered_admitGroup (groupId : Value I) (members : Members M) :
    Covered 0 (Locked.admitGroup groupId members) (admitGroup groupId members) w := by
  rw [Locked.admitGroup, admitGroup]
  apply Covered.spare
  cases admitBuild groupId members with
  | error e => apply Covered.raise
  | ok built =>
    obtain ⟨id, group⟩ := built
    apply Covered.locked
    apply Covered.tick (Nat.le_refl 1)
    apply Covered.charge_bind (a := w.groups) (t := w) (Nat.le_refl 1) rfl rfl
    split
    · apply Covered.raise
    · apply Covered.look (a := w.memberIndex) rfl
      dsimp only
      split
      · apply Covered.tick (Nat.le_add_left 1 _)
        apply Covered.raise
      · apply Covered.look (a := w.sequence) rfl
        apply Covered.tick (Nat.le_add_left 2 _)
        apply Covered.access_bind
        intro h t _
        apply Covered.access_bind
        intro _ u _
        apply Covered.spare
        apply Covered.access_bind
        intro _ v _
        apply Covered.spare
        apply Covered.forM_access_bind
        intro x
        apply Covered.look (a := x.onReadyCallback) rfl
        apply Covered.tick (Nat.le_refl 1)
        apply Covered.andThen
        apply Covered.map
        exact Covered.charge _ (Nat.le_refl 1)

theorem covered_groupOf (member : Value M) :
    Covered 0 (Locked.groupOf (I := I) member) (groupOf member) w := by
  apply Covered.locked
  apply Covered.tick (Nat.le_refl 1)
  cases member with
  | unhashable t => apply Covered.pure
  | hashable m =>
    apply Covered.charge_bind (a := w.memberIndex) (t := w) (Nat.le_refl 1) rfl rfl
    cases w.memberIndex.get? m with
    | none => apply Covered.pure
    | some id =>
      apply Covered.charge_bind (a := w.groups) (t := w) (Nat.le_refl 1) rfl rfl
      cases w.groups.get? id with
      | none => apply Covered.raise
      | some h => apply Covered.pure

theorem covered_markReady (member : Value M) :
    Covered 0 (Locked.markReady (I := I) member) (markReady member) w := by
  apply Covered.locked
  apply Covered.tick (Nat.le_succ 1)
  apply Covered.bind (covered_groupOf member)
  · rw [Locked.serial_groupOf, unmetered_groupOf]
  · intro group t _
    apply Covered.spare
    cases group with
    | none => apply Covered.raise
    | some h =>
      apply Covered.spare
      apply covered_groupMarkReady

theorem covered_markGroupReady (groupId : Value I) :
    Covered 0 (Locked.markGroupReady (M := M) groupId) (markGroupReady groupId) w := by
  apply Covered.locked
  apply Covered.tick (Nat.le_succ 1)
  apply Covered.bind (covered_find groupId)
  · rw [Locked.serial_find, unmetered_find]
  · intro group t _
    apply Covered.spare
    cases group with
    | none => apply Covered.raise
    | some h =>
      apply Covered.access_bind
      intro g u _
      apply Covered.forM_bind
      · intro m v
        apply Covered.spare
        apply Covered.andThen
        apply Covered.map
        apply covered_groupMarkReady
      · intro m
        rw [unmetered_tick_bind]
        simp only [Prog.serial_bind, Locked.serial_groupMarkReady, Prog.serial_pure,
          unmetered_bind, unmetered_groupMarkReady, unmetered_pure]
      · intro v
        apply Covered.pure

theorem covered_cancel (groupId : Value I) :
    Covered 0 (Locked.cancel (M := M) groupId) (cancel groupId) w := by
  apply Covered.locked
  apply Covered.tick (Nat.le_succ 1)
  apply Covered.bind (covered_find groupId)
  · rw [Locked.serial_find, unmetered_find]
  · intro group t _
    apply Covered.spare
    cases group with
    | none => apply Covered.raise
    | some h =>
      apply Covered.ahead_bind (covered_remove (Nat.le_refl 1) h)
      · rw [Locked.serial_remove, unmetered_remove]
      · intro _ u _
        apply Covered.pure

theorem covered_release : Covered 0 (Locked.release (I := I) (M := M)) release w := by
  apply Covered.locked
  apply Covered.tick (Nat.le_succ 1)
  apply Covered.bind covered_peek
  · rw [Locked.serial_peek, unmetered_peek]
  · intro group t _
    cases group with
    | none =>
      apply Covered.spare
      apply Covered.pure
    | some h =>
      apply Covered.ahead_bind (covered_remove (Nat.le_succ 1) h)
      · rw [Locked.serial_remove, unmetered_remove]
      · intro _ u _
        apply Covered.pure

theorem covered_releaseAllLoop (rounds : Nat) (released : List Handle) :
    Covered 0 (Locked.releaseAllLoop (I := I) (M := M) rounds released)
      (releaseAllLoop rounds released) w := by
  induction rounds generalizing w released with
  | zero => apply Covered.pure
  | succ rounds ih =>
    apply Covered.spare
    apply Covered.bind covered_release
    · rw [Locked.serial_release, unmetered_release]
    · intro group t _
      apply Covered.spare
      cases group with
      | none => apply Covered.pure
      | some h => apply ih

theorem covered_releaseAll : Covered 0 (Locked.releaseAll (I := I) (M := M)) releaseAll w := by
  apply Covered.locked
  apply Covered.look (a := w.groups) rfl
  apply Covered.tick (Nat.le_refl 2)
  apply Covered.skip (b := w) rfl
  apply covered_releaseAllLoop

/-- Whatever the threads do in a call, to the state or to the lock, is within its steps. -/
theorem moves_le_steps (op : Op I M) (w : World I M) :
    (Request.method (.op op)).moves w ≤ steps (perform op) w := by
  suffices h : Covered 0 (Request.method (.op op)) (perform op) w from h
  cases op with
  | admitGroup groupId members => exact ((covered_admitGroup groupId members).map _).andThen _
  | markReady member => exact ((covered_markReady member).map _).andThen _
  | markGroupReady groupId => exact ((covered_markGroupReady groupId).map _).andThen _
  | groupOf member => exact ((covered_groupOf member).map _).andThen _
  | cancel groupId => exact ((covered_cancel groupId).map _).andThen _
  | clear => exact (covered_clear.map _).andThen _
  | peek => exact (covered_peek.map _).andThen _
  | release => exact (covered_release.map _).andThen _
  | releaseAll => exact (covered_releaseAll.map _).andThen _
  | groups => exact (covered_waitingGroups.map _).andThen _
  | len => exact (covered_len.map _).andThen _
  | contains member => exact ((covered_contains member).map _).andThen _
  | groupMarkReady group member => exact ((covered_groupMarkReady group member).map _).andThen _

theorem moves_le_steps_members (h : Handle) (w : World I M) :
    (Request.method (.readyMembers h)).moves w ≤ steps (readyMembers h) w ∧
      (Request.method (.waitingMembers h)).moves w ≤ steps (waitingMembers h) w :=
  ⟨(covered_readyMembers h).map _, (covered_waitingMembers h).map _⟩

end Tito.Priced
