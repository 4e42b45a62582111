import Tito.Line

namespace Tito

open Lib Lib.Heapq Lib.Mealy

variable {I M : Type}

/-- What an access to a built-in container raises when nothing guards it. -/
inductive AccessError where
  | keyError
  | indexError
  deriving DecidableEq

def heapTop : List Nat → Except AccessError Nat
  | [] => .error .indexError
  | top :: _ => .ok top

/-- `heapq.heappop(heap)`, with the heap that it leaves. -/
def checkedHeappop : List Nat → Except AccessError (List Nat)
  | [] => .error .indexError
  | top :: rest => .ok (heappop (top :: rest))

theorem length_checkedHeappop {heap heap' : List Nat} (h : checkedHeappop heap = .ok heap') :
    heap'.length < heap.length := by
  cases heap with
  | nil => cases h
  | cons top rest =>
    rw [← Except.ok.inj h, LazyHeap.length_heappop_cons, List.length_cons]
    exact Nat.lt_succ_self _

/-- The loop of a relaxed `peek`, with every access to the heap checked. -/
def checkedPeekLoop (w : World I M) : Except AccessError (Option Handle × World I M) :=
  if w.readyHeap.length = 0 then .ok (none, w)
  else match heapTop w.readyHeap with
    | .error e => .error e
    | .ok top =>
      match w.readyGroups.get? top with
      | some group => .ok (some group, w)
      | none =>
        match _h : checkedHeappop w.readyHeap with
        | .error e => .error e
        | .ok heap => checkedPeekLoop ({ w with readyHeap := heap }.wrote (.popStale top))
termination_by w.readyHeap.length
decreasing_by exact length_checkedHeappop _h

/-- `tuple(m for m in members if ready[m] == flag)`, with every access to the flags checked. -/
def checkedFilter [DecidableEq M] (ready : Dict M Bool) (flag : Bool) :
    List M → Except AccessError (List M)
  | [] => .ok []
  | m :: rest =>
    match ready.get? m with
    | none => .error .keyError
    | some b => (checkedFilter ready flag rest).map fun ms => if b = flag then m :: ms else ms

/-- The `TitoError` that a call on the queue may raise; `admit` apart, each has one at most. -/
def Op.refusal : Op I M → Option (TitoError I M)
  | .markReady member => some (.memberNotQueued member)
  | .markGroupReady groupId => some (.groupNotQueued groupId)
  | .cancel groupId => some (.groupNotQueued groupId)
  | _ => none

/-- No access that the code leaves unguarded can fail: each is to a key that is there, or to a
heap that is not empty. -/
structure AccessesSucceed [DecidableEq I] [DecidableEq M] (w : World I M) : Prop where
  group_of : ∀ m id, w.memberIndex.get? m = some id → id ∈ w.groups.keys
  mark_ready : ∀ m h, (groupOf (.hashable m)).run w = .ok (some h) w →
    ∃ g, w.objects[h]? = some g ∧ m ∈ g.ready.keys
  cancel : ∀ groupId h, (find groupId).run w = .ok (some h) w →
    ∃ w', (remove h).run w = .ok () w'
  release : ∀ h u, peek.run w = .ok (some h) u → ∃ w', (remove h).run u = .ok () w'
  peek : checkedPeekLoop w = .ok (peekLoop w)
  members : ∀ (h : Handle) (g : Group I M), w.objects[h]? = some g →
    checkedFilter g.ready true g.members = .ok g.readyMembers ∧
    checkedFilter g.ready false g.members = .ok g.waitingMembers

theorem checkedPeekLoop_eq (w : World I M) : checkedPeekLoop w = .ok (peekLoop w) := by
  induction w using peekLoop.induct with
  | case1 w hw => rw [checkedPeekLoop, if_pos (by rw [hw]; rfl), peekLoop_nil hw]
  | case2 w top t hw g hg =>
    rw [checkedPeekLoop, if_neg (by simp [hw]), peekLoop_live hw hg]
    simp only [hw, heapTop, hg]
  | case3 w top t hw hg ih =>
    have htop : heapTop w.readyHeap = .ok top := by rw [hw, heapTop]
    have hpop : checkedHeappop w.readyHeap = .ok (heappop w.readyHeap) := by rw [hw, checkedHeappop]
    rw [checkedPeekLoop, if_neg (by simp [hw]), peekLoop_stale hw hg, ← ih]
    simp only [htop, hg]
    split
    · rename_i e he
      rw [hpop] at he
      cases he
    · rename_i heap he
      rw [hpop] at he
      rw [← Except.ok.inj he]

variable [DecidableEq M]

theorem checkedFilter_eq {ready : Dict M Bool} {ms : List M} (hms : ∀ m ∈ ms, m ∈ ready.keys)
    (flag : Bool) :
    checkedFilter ready flag ms = .ok (ms.filter fun m => ready.get? m = some flag) := by
  induction ms with
  | nil => rfl
  | cons m ms ih =>
    obtain ⟨b, hb⟩ := Dict.mem_keys_iff.mp (hms m List.mem_cons_self)
    rw [checkedFilter, ih fun k hk => hms k (List.mem_cons_of_mem m hk), hb, List.filter_cons, hb]
    by_cases hf : b = flag <;> simp [hf, Except.map]

variable [DecidableEq I]

namespace PlainQueue

omit [DecidableEq I] in
theorem Valid.groupMarkReady_ok {q : PlainQueue I M} (hq : q.Valid) {e : Entry I M}
    (he : e ∈ q.waiting) {m : M} (hm : m ∈ e.members) :
    q.groupMarkReady e.handle (.hashable m) =
      (.ok (.bool (e.mark m).ready), q.mark e.handle m) := by
  simp only [groupMarkReady, hq.look_eq he, hm, if_true]

theorem Valid.raises {q : PlainQueue I M} (hq : q.Valid) {op : Op I M} {err : PyError I M}
    (hnew : ∀ groupId members, op ≠ .admitGroup groupId members)
    (hhandle : ∀ h v, op ≠ .groupMarkReady h v) (h : (q.step op).1 = .error err) :
    ∃ t, op.refusal = some t ∧ err = .tito t := by
  cases op with
  | admitGroup groupId members => exact absurd rfl (hnew groupId members)
  | groupMarkReady k v => exact absurd rfl (hhandle k v)
  | markReady v =>
    simp only [step, markReady] at h
    cases hof : v.toOption.bind q.groupOf with
    | none =>
      rw [hof] at h
      exact ⟨_, rfl, (Except.error.inj h).symm⟩
    | some e =>
      cases v with
      | unhashable t => cases hof
      | hashable m =>
        have hfind : q.waiting.find? (fun a => decide (m ∈ a.members)) = some e := hof
        have hm : m ∈ e.members := by simpa using List.find?_some hfind
        rw [hof] at h
        dsimp only at h
        rw [hq.groupMarkReady_ok (List.mem_of_find?_eq_some hfind) hm] at h
        cases h
  | markGroupReady id =>
    simp only [step, markGroupReady] at h
    cases hf : q.find id with
    | none =>
      rw [hf] at h
      exact ⟨_, rfl, (Except.error.inj h).symm⟩
    | some e =>
      rw [hf] at h
      cases h
  | cancel id =>
    simp only [step, cancel] at h
    cases hf : q.find id with
    | none =>
      rw [hf] at h
      exact ⟨_, rfl, (Except.error.inj h).symm⟩
    | some e =>
      rw [hf] at h
      cases h
  | _ => cases h

end PlainQueue

theorem Consistent.accessesSucceed {w : World I M} (hw : Consistent w) : AccessesSucceed w where
  group_of := by
    intro m id hid
    obtain ⟨h, _, hh, _⟩ := (hw.indexed m id).mp hid
    exact Dict.mem_keys_of_get? hh
  mark_ready := by
    intro m h hr
    have hlook := groupOf_run hw.toRegistered (.hashable m)
    rw [hr] at hlook
    have hsome : some h = (w.memberIndex.get? m).bind w.groups.get? :=
      (EStateM.Result.ok.inj hlook).1
    obtain ⟨id, hid, hh⟩ := Option.bind_eq_some_iff.mp hsome.symm
    obtain ⟨h', g, hh', hg, hm⟩ := (hw.indexed m id).mp hid
    obtain rfl := Option.some.inj (hh.symm.trans hh')
    exact ⟨g, hg, g.keys_ready ▸ hm⟩
  cancel := by
    intro groupId h hf
    rw [find_run] at hf
    obtain ⟨id, g, hid, hg, _⟩ := found_of_find hw.toRegistered (EStateM.Result.ok.inj hf).1
    exact ⟨_, remove_run hw.toRegistered hid hg⟩
  release := by
    intro h u hp
    obtain ⟨o, u', hr, hu, _, _, _, hin, _⟩ := peek_run hw
    rw [hp] at hr
    obtain ⟨rfl, rfl⟩ := EStateM.Result.ok.inj hr
    obtain ⟨id, g, hid, hg, _⟩ := hu.waiting (hin h rfl)
    exact ⟨_, remove_run hu.toRegistered hid hg⟩
  peek := checkedPeekLoop_eq w
  members := by
    intro h g _
    have hms : ∀ m ∈ g.members, m ∈ g.ready.keys := fun m hm => g.keys_ready ▸ hm
    exact ⟨checkedFilter_eq hms true, checkedFilter_eq hms false⟩

/-- In every reachable state no unguarded access can fail, in no call on the queue and in no
property of a group. So the calls other than `admit` raise nothing but the one `TitoError` they
are meant to, a mark through a group's handle raises only for a value that is not its member, and
a call that raises has changed nothing: no removal stops halfway. -/
theorem accesses_succeed (strictOrder : Bool) (ops : List (Op I M)) :
    let w := final step (World.init strictOrder) ops
    AccessesSucceed w ∧
    (∀ op err, (∀ groupId members, op ≠ .admitGroup groupId members) →
      (∀ h v, op ≠ .groupMarkReady h v) → (step w op).1 = .error err →
      ∃ t, op.refusal = some t ∧ err = .tito t) ∧
    (∀ h v g err, w.objects[h]? = some g → (step w (.groupMarkReady h v)).1 = .error err →
      err = .tito (.notAMember v g.groupId g.members)) ∧
    ∀ op err, (step w op).1 = .error err → (step w op).2 = w := by
  intro w
  have hw : Consistent w := consistent_of_reachable ⟨ops, rfl⟩
  refine ⟨hw.accessesSucceed, ?_, ?_, fun op err he => (step_simulated hw op).refused err he⟩
  · intro op err hadmission hhandle he
    have hstep : (step w op).1 = (w.plain.step op).1 := congrArg Prod.fst (step_plain hw op)
    rw [hstep] at he
    exact hw.plain_valid.raises hadmission hhandle he
  · intro h v g err hg he
    have hstep : (step w (.groupMarkReady h v)).1 = (w.plain.groupMarkReady h v).1 :=
      congrArg Prod.fst (step_plain hw (.groupMarkReady h v))
    have hl : w.look h = some (g.entry h) := World.look_eq_some.mpr ⟨g, hg, rfl⟩
    rw [hstep] at he
    simp only [PlainQueue.groupMarkReady, hw.plain_look, hl, g.members_entry] at he
    cases v with
    | unhashable t => exact (Except.error.inj he).symm
    | hashable m =>
      dsimp only at he
      split at he
      · cases he
      · exact (Except.error.inj he).symm

end Tito
