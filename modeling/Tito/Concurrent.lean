import Tito.Discipline
import Tito.Indexes
import Tito.Line
import Tito.Lib.Scheduling

namespace Tito

open Lib Lib.Mealy Lib.Monitor Lib.Monitor.Prog Lib.Threads

variable {T I M : Type}

/-- What a thread may ask for: a call on the queue, a look at a group it has a handle
of, or what printing asks for. -/
inductive Request (I M : Type) where
  | op (op : Op I M)
  | isReady (group : Handle)
  | readyCount (group : Handle)
  | readyMembers (group : Handle)
  | waitingMembers (group : Handle)
  | groupRepr (group : Handle)
  | queueRepr
  deriving DecidableEq

/-- What a call returns. A group comes as a handle: its flags are for later calls to ask for. -/
inductive Returned (M : Type) where
  | none
  | bool (b : Bool)
  | number (n : Nat)
  | group (h : Handle)
  | groups (hs : List Handle)
  | members (ms : List M)
  | progress (readyCount : Nat) (waiting : List M)
  | counts (waiting ready : Nat)
  deriving DecidableEq

def Returned.ofOption (o : Option Handle) : Returned M := o.elim .none .group

def Returned.ofProgress (p : Nat × List M) : Returned M := .progress p.1 p.2

def Returned.ofCounts (p : Nat × Nat) : Returned M := .counts p.1 p.2

/-- The requests that take no lock. -/
def Request.looks : Request I M → Bool
  | .op .len => true
  | .op (.contains _) => true
  | _ => false

variable [DecidableEq I] [DecidableEq M]

def Request.method : Request I M → Locked.Method I M (Returned M)
  | .op (.admitGroup groupId members) => return .group (← Locked.admitGroup groupId members)
  | .op (.markReady member) => return .bool (← Locked.markReady member)
  | .op (.markGroupReady groupId) => return .bool (← Locked.markGroupReady groupId)
  | .op (.groupOf member) => return .ofOption (← Locked.groupOf member)
  | .op (.cancel groupId) => return .group (← Locked.cancel groupId)
  | .op .clear => return .groups (← Locked.clear)
  | .op .peek => return .ofOption (← Locked.peek)
  | .op .release => return .ofOption (← Locked.release)
  | .op .releaseAll => return .groups (← Locked.releaseAll)
  | .op .groups => return .groups (← Locked.waitingGroups)
  | .op .len => return .number (← Locked.len)
  | .op (.contains member) => return .bool (← Locked.contains member)
  | .op (.groupMarkReady group member) => return .bool (← Locked.groupMarkReady group member)
  | .isReady group => return .bool (← Locked.isReady group)
  | .readyCount group => return .number (← Locked.readyCount group)
  | .readyMembers group => return .members (← Locked.readyMembers group)
  | .waitingMembers group => return .members (← Locked.waitingMembers group)
  | .groupRepr group => return Returned.ofProgress (← Locked.groupRepr group)
  | .queueRepr => return Returned.ofCounts (← Locked.queueRepr)

/-- What the method computes where nothing else goes on. -/
def Request.alone : Request I M → Py I M (Returned M)
  | .op (.admitGroup groupId members) => return .group (← admitGroup groupId members)
  | .op (.markReady member) => return .bool (← markReady member)
  | .op (.markGroupReady groupId) => return .bool (← markGroupReady groupId)
  | .op (.groupOf member) => return .ofOption (← groupOf member)
  | .op (.cancel groupId) => return .group (← cancel groupId)
  | .op .clear => return .groups (← clear)
  | .op .peek => return .ofOption (← peek)
  | .op .release => return .ofOption (← release)
  | .op .releaseAll => return .groups (← releaseAll)
  | .op .groups => return .groups (← waitingGroups)
  | .op .len => return .number (← len)
  | .op (.contains member) => return .bool (← contains member)
  | .op (.groupMarkReady group member) => return .bool (← groupMarkReady group member)
  | .isReady group => return .bool (← deref group).isReady
  | .readyCount group => return .number (← deref group).readyCount
  | .readyMembers group => return .members (← deref group).readyMembers
  | .waitingMembers group => return .members (← deref group).waitingMembers
  | .groupRepr group => return Returned.ofProgress (← Tito.groupRepr group)
  | .queueRepr => return Returned.ofCounts (← Tito.queueRepr)

theorem Request.serial_method (r : Request I M) : serial r.method = r.alone := by
  cases r with
  | op op =>
    cases op with
    | admitGroup groupId members => simp [method, alone, Locked.serial_admitGroup]
    | markReady member => simp [method, alone, Locked.serial_markReady]
    | markGroupReady groupId => simp [method, alone, Locked.serial_markGroupReady]
    | groupOf member => simp [method, alone, Locked.serial_groupOf]
    | cancel groupId => simp [method, alone, Locked.serial_cancel]
    | clear => simp [method, alone, Locked.serial_clear]
    | peek => simp [method, alone, Locked.serial_peek]
    | release => simp [method, alone, Locked.serial_release]
    | releaseAll => simp [method, alone, Locked.serial_releaseAll]
    | groups => simp [method, alone, Locked.waitingGroups, waitingGroups]
    | len => simp [method, alone, Locked.len, len]
    | contains member =>
      cases member <;> simp [method, alone, Locked.contains, contains]
    | groupMarkReady group member => simp [method, alone, Locked.serial_groupMarkReady]
  | isReady group => simp [method, alone, Locked.isReady]
  | readyCount group => simp [method, alone, Locked.readyCount]
  | readyMembers group => simp [method, alone, Locked.readyMembers]
  | waitingMembers group => simp [method, alone, Locked.waitingMembers]
  | groupRepr group => simp [method, alone, Locked.serial_groupRepr]
  | queueRepr => simp [method, alone, Locked.serial_queueRepr]

theorem disciplined : Disciplined (Request.method (I := I) (M := M)) Request.looks where
  guarded := by
    intro r hr
    cases r with
    | op op =>
      cases op with
      | admitGroup groupId members =>
        exact guarded_map (Locked.guarded_admitGroup groupId members) _
      | markReady member => exact guarded_map (Locked.block_markReady member).guarded _
      | markGroupReady groupId => exact guarded_map (Locked.block_markGroupReady groupId).guarded _
      | groupOf member => exact guarded_map (Locked.block_groupOf member).guarded _
      | cancel groupId => exact guarded_map (Locked.block_cancel groupId).guarded _
      | clear => exact guarded_map Locked.block_clear.guarded _
      | peek => exact guarded_map Locked.block_peek.guarded _
      | release => exact guarded_map Locked.block_release.guarded _
      | releaseAll => exact guarded_map Locked.block_releaseAll.guarded _
      | groups => exact guarded_map (Locked.block_field _).guarded _
      | len => cases hr
      | contains member => cases hr
      | groupMarkReady group member =>
        exact guarded_map (Locked.block_groupMarkReady group member).guarded _
    | isReady group => exact guarded_map (Locked.block_isReady group).guarded _
    | readyCount group => exact guarded_map (Locked.block_field _).guarded _
    | readyMembers group => exact guarded_map (Locked.block_field _).guarded _
    | waitingMembers group => exact guarded_map (Locked.block_field _).guarded _
    | groupRepr group => exact guarded_map (Locked.block_groupRepr group).guarded _
    | queueRepr => exact guarded_map Locked.block_queueRepr.guarded _
  looking := by
    intro r hr
    cases r with
    | op op =>
      cases op with
      | len => exact looking_map (Locked.looking_read _) _
      | contains member =>
        cases member with
        | unhashable t => trivial
        | hashable m => exact looking_map (looking_map (Locked.looking_read _) _) _
      | _ => cases hr
    | _ => cases hr

def invoke : Machine (World I M) (Request I M) (Except (PyError I M) (Returned M)) := fun w r =>
  match r.alone.run w with
  | .ok a w' => (.ok a, w')
  | .error e w' => (.error e, w')

theorem spec_method : spec (Request.method (I := I) (M := M)) = invoke := by
  funext w r
  refine (exec_eq r.method w).trans ?_
  rw [r.serial_method, invoke]
  cases r.alone.run w with
  | ok a w' => rfl
  | error e w' => rfl

/-- However the accesses of the threads interleave, they see what an atomic queue would let them
see: each call takes effect at one moment between its beginning and its return, the effects make
a serial run, and every thread gets the results of its own effects in their order. Calls that take
no lock may go on all the while. -/
theorem calls_linearizable [DecidableEq T] (strictOrder : Bool)
    (schedule : List (Choice T (Request I M))) :
    let c := final (Threads.step Request.method) (Config.init (World.init strictOrder)) schedule
    let events :=
      history (Threads.step Request.method) (Config.init (World.init strictOrder)) schedule
    ∃ moves,
      let a := final (Object.step invoke Request.looks) (Object.init (World.init strictOrder)) moves
      history (Object.step invoke Request.looks) (Object.init (World.init strictOrder)) moves =
        events ∧
      answers invoke (World.init strictOrder) (a.log.map fun e => e.2.1) =
        (a.log.map fun e => e.2.2) ∧
      (∀ t : T, returnsTo Request.looks t events <+:
        (ofThread t a.log).filter fun e => e.2.1.looks = false) ∧
      (c.lock = none →
        c.shared = final invoke (World.init strictOrder) (a.log.map fun e => e.2.1)) := by
  intro c events
  obtain ⟨moves, hhistory, hmatches⟩ := linearizable disciplined (Matches.init _) schedule
  rw [spec_method] at hhistory hmatches
  obtain ⟨hserial, haccounted⟩ := Object.run invoke Request.looks (World.init strictOrder)
    moves
  refine ⟨moves, hhistory, hserial.answers, fun t => ?_, fun hfree => ?_⟩
  · rw [haccounted t, hhistory]
    exact List.prefix_append _ _
  · exact (hmatches.free hfree).trans hserial.final

/-- The threads never wait for each other in a circle, and no call goes on for ever: from any
state that they get into, a scheduler that picks a thread that can move, where there is one, sees
all calls return. -/
theorem every_call_returns [DecidableEq T] [Fintype T] (strictOrder : Bool)
    (schedule : List (Choice T (Request I M)))
    (pick : Config T (World I M) (Request I M) (Except (PyError I M) (Returned M)) → T)
    (hpick : ∀ c : Config T _ _ _, (∃ t, c.canMove t = true) → c.canMove (pick c) = true) :
    let c := final (Threads.step Request.method) (Config.init (World.init strictOrder)) schedule
    (∀ t, c.thread t ≠ none → ∃ u, c.canMove u = true) ∧
    ∃ n, ∀ t, ((fun c => (c.turn (pick c)).2)^[n] c).thread t = none := by
  intro c
  obtain ⟨moves, -, hmatches⟩ := linearizable disciplined (Matches.init _) schedule
  exact ⟨fun t ht => hmatches.someone_moves disciplined ht, hmatches.finishes disciplined hpick⟩

/-- Two threads, one in the middle of an admission and one that waits for the lock to release:
picking the first where it can move, and the second elsewhere, sees both calls return. -/
theorem every_call_returns_two_threads :
    let c := final (Threads.step Request.method) (Config.init (World.init true))
      [Choice.call true (.op (.admitGroup (.hashable 7) (.iterable [.hashable 1]))), .turn true,
        .call false (.op .release), .turn false]
    c.canMove false = false ∧ (c.thread false).isSome = true ∧
    (∀ t, c.thread t ≠ none → ∃ u, c.canMove u = true) ∧
    ∃ n, ∀ t : Bool, ((fun c : Config Bool (World Nat Nat) (Request Nat Nat) _ =>
      (c.turn (c.canMove true)).2)^[n] c).thread t = none := by
  intro c
  refine ⟨by decide, by decide, ?_⟩
  refine every_call_returns true
    [Choice.call true (.op (.admitGroup (.hashable 7) (.iterable [.hashable 1]))), .turn true,
      .call false (.op .release), .turn false] (fun c => c.canMove true) ?_
  rintro c ⟨t, ht⟩
  cases hc : c.canMove true with
  | true => exact hc
  | false =>
    cases t with
    | true => exact absurd ht (by simp [hc])
    | false => exact ht

/-- What a caller sees who looks at the groups that a call returned. -/
def Returned.shown (w : World I M) : Returned M → Answer I M
  | .none => .none
  | .bool b => .bool b
  | .number n => .number n
  | .group h => (w.look h).elim .none .group
  | .groups hs => .groups (hs.filterMap w.look)
  | .members _ => .none
  | .progress _ _ => .none
  | .counts _ _ => .none

omit [DecidableEq I] [DecidableEq M] in
theorem showGroup_run_ofOption (o : Option Handle) (w : World I M) :
    (showGroup o).run w = .ok ((Returned.ofOption (M := M) o).shown w) w := by
  cases o <;> rfl

theorem perform_run (op : Op I M) (w : World I M) : (perform op).run w =
    match (Request.op op).alone.run w with
    | .ok x w' => .ok (x.shown w') w'
    | .error e w' => .error e w' := by
  cases op with
  | groupMarkReady group member =>
    simp only [perform, Request.alone, EStateM.run_bind]
    cases (groupMarkReady group member).run w <;> rfl
  | contains member =>
    simp only [perform, Request.alone, EStateM.run_bind]
    cases (contains member).run w <;> rfl
  | groupOf member =>
    simp only [perform, Request.alone, EStateM.run_bind]
    cases (groupOf member).run w with
    | ok o w' => exact showGroup_run_ofOption o w'
    | error e w' => rfl
  | peek =>
    simp only [perform, Request.alone, EStateM.run_bind]
    cases peek.run w with
    | ok o w' => exact showGroup_run_ofOption o w'
    | error e w' => rfl
  | release =>
    simp only [perform, Request.alone, EStateM.run_bind]
    cases release.run w with
    | ok o w' => exact showGroup_run_ofOption o w'
    | error e w' => rfl
  | admitGroup groupId members =>
    simp only [perform, Request.alone, EStateM.run_bind]
    cases (admitGroup groupId members).run w <;> rfl
  | markReady member =>
    simp only [perform, Request.alone, EStateM.run_bind]
    cases (markReady member).run w <;> rfl
  | markGroupReady groupId =>
    simp only [perform, Request.alone, EStateM.run_bind]
    cases (markGroupReady groupId).run w <;> rfl
  | cancel groupId =>
    simp only [perform, Request.alone, EStateM.run_bind]
    cases (cancel groupId).run w <;> rfl
  | clear =>
    simp only [perform, Request.alone, EStateM.run_bind]
    cases clear.run w <;> rfl
  | releaseAll =>
    simp only [perform, Request.alone, EStateM.run_bind]
    cases releaseAll.run w <;> rfl
  | groups => rfl
  | len => rfl

theorem step_eq_invoke (w : World I M) (op : Op I M) :
    step w op = ((invoke w (.op op)).1.map (Returned.shown (invoke w (.op op)).2),
      (invoke w (.op op)).2) := by
  rw [step, attempt, perform_run, invoke]
  cases (Request.op op).alone.run w <;> rfl

end Tito
