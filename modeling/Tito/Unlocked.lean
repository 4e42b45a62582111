import Tito.Refinement
import Tito.Lib.Readers

namespace Tito

open Lib Lib.Heapq Lib.Mealy Lib.Readers

variable {I M : Type}

/-- The two dictionaries that are read without the lock. -/
@[ext]
structure Registers (I M : Type) where
  groups : Dict I Handle
  memberIndex : Dict M I

def World.registers (w : World I M) : Registers I M := ⟨w.groups, w.memberIndex⟩

/-- A query that takes no lock: `len(queue)` or `member in queue`. -/
inductive Query (M : Type) where
  | len
  | contains (member : Value M)

def Query.op : Query M → Op I M
  | .len => .len
  | .contains member => .contains member

/-- One query by one of the readers. -/
structure Read (M : Type) where
  reader : Nat
  query : Query M

/-- Writes to the ready index, which no unlocked query looks at. -/
def Write.silent : Write I M → Bool
  | .setReady .. | .popReady _ | .clearReady => true
  | .push _ | .popStale _ | .rebuild _ | .clearHeap => true
  | _ => false

def Answer.size : Answer I M → Nat
  | .number n => n
  | .bool b => b.toNat
  | _ => 0

abbrev Grows (a b : Answer I M) : Prop := a.size < b.size

abbrev Shrinks (a b : Answer I M) : Prop := b.size < a.size

instance : IsStrictOrder (Answer I M) Grows where
  irrefl a := Nat.lt_irrefl a.size
  trans _ _ _ := Nat.lt_trans

instance : IsStrictOrder (Answer I M) Shrinks where
  irrefl a := Nat.lt_irrefl a.size
  trans _ _ _ h h' := Nat.lt_trans h' h

variable [DecidableEq I] [DecidableEq M]

def Write.apply (s : Registers I M) : Write I M → Registers I M
  | .setGroup id h => { s with groups := s.groups.set id h }
  | .delGroup id => { s with groups := s.groups.erase id }
  | .clearGroups => { s with groups := Dict.empty }
  | .setMember m id => { s with memberIndex := s.memberIndex.set m id }
  | .delMember m => { s with memberIndex := s.memberIndex.erase m }
  | .clearMembers => { s with memberIndex := Dict.empty }
  | _ => s

def Registers.read (s : Registers I M) : Query M → Answer I M
  | .len => .number s.groups.length
  | .contains (.hashable m) => .bool (s.memberIndex.contains m)
  | .contains (.unhashable _) => .bool false

/-- The write is to an entry that the query looks at. A dictionary that is cleared has its
entries written that are there. -/
def Write.touches (s : Registers I M) : Write I M → Query M → Prop
  | .setGroup .., .len | .delGroup _, .len => True
  | .clearGroups, .len => s.groups.length ≠ 0
  | .setMember m _, .contains v | .delMember m, .contains v => v = .hashable m
  | .clearMembers, .contains v => ∃ m ∈ s.memberIndex.keys, v = .hashable m
  | _, _ => False

instance (s : Registers I M) (w : Write I M) (q : Query M) : Decidable (w.touches s q) := by
  unfold Write.touches
  split <;> infer_instance

theorem step_query (w : World I M) (q : Query M) : step w q.op = (.ok (w.registers.read q), w) := by
  cases q with
  | len => rfl
  | contains v => cases v <;> rfl

theorem Write.read_of_not_touches {s : Registers I M} {w : Write I M} {q : Query M}
    (h : ¬ w.touches s q) : (w.apply s).read q = s.read q := by
  cases q with
  | len =>
    cases w with
    | setGroup | delGroup => exact absurd trivial h
    | clearGroups => exact congrArg Answer.number (not_not.mp h).symm
    | _ => rfl
  | contains v =>
    cases v with
    | unhashable t => rfl
    | hashable m =>
      cases w with
      | setMember m' id =>
        have hm : m ≠ m' := fun hm => h (congrArg Value.hashable hm)
        simp only [Write.apply, Registers.read, Dict.contains, Dict.get?_set, if_neg hm]
      | delMember m' =>
        have hm : m ≠ m' := fun hm => h (congrArg Value.hashable hm)
        simp only [Write.apply, Registers.read, Dict.contains, Dict.get?_erase, if_neg hm]
      | clearMembers =>
        have hm : m ∉ s.memberIndex.keys := fun hm => h ⟨m, hm, rfl⟩
        simp only [Write.apply, Registers.read, Dict.contains_eq_false_iff.mpr hm]
        rfl
      | _ => rfl

def unlocked : Store (Registers I M) (Write I M) (Read M) (Answer I M) where
  apply := Write.apply
  read s r := s.read r.query
  touches s w r := w.touches s r.query
  untouched := fun _ _ _ => Write.read_of_not_touches

instance (s : Registers I M) (w : Write I M) (q : Read M) : Decidable (unlocked.touches s w q) :=
  inferInstanceAs (Decidable (w.touches s q.query))

theorem oneWay_of_silent {r : Answer I M → Answer I M → Prop} {ws : List (Write I M)}
    (hws : ∀ w ∈ ws, w.silent = true) (s : Registers I M) :
    unlocked.OneWay r s ws ∧ unlocked.run s ws = s := by
  induction ws with
  | nil => exact ⟨trivial, rfl⟩
  | cons w ws ih =>
    obtain ⟨ho, hr⟩ := ih fun w' hw' => hws w' (List.mem_cons_of_mem w hw')
    have hw := hws w List.mem_cons_self
    have ha : unlocked.apply s w = s := by
      cases w with
      | setReady | popReady | clearReady | push | popStale | rebuild | clearHeap => rfl
      | _ => cases hw
    have ht : ∀ q, ¬ unlocked.touches s w q := by
      intro q hq
      cases w with
      | setReady | popReady | clearReady | push | popStale | rebuild | clearHeap => exact hq
      | _ => cases hw
    refine ⟨⟨fun q hq => absurd hq (ht q), ?_⟩, ?_⟩
    · rwa [ha]
    · rw [show unlocked.run s (w :: ws) = unlocked.run (unlocked.apply s w) ws from rfl, ha, hr]

/-- The two dictionaries of `w'` are those of `w` after the writes `ws`, which go one way. -/
structure Wrote (r : Answer I M → Answer I M → Prop) (w w' : World I M) (ws : List (Write I M)) :
    Prop where
  trace : w'.trace = w.trace ++ ws
  replayed : w'.registers = unlocked.run w.registers ws
  oneWay : unlocked.OneWay r w.registers ws

section

variable {r : Answer I M → Answer I M → Prop}

theorem Wrote.refl (w : World I M) : Wrote r w w [] := ⟨(List.append_nil _).symm, rfl, trivial⟩

theorem Wrote.trans {w w' w'' : World I M} {ws ws' : List (Write I M)} (h : Wrote r w w' ws)
    (h' : Wrote r w' w'' ws') : Wrote r w w'' (ws ++ ws') where
  trace := by rw [h'.trace, h.trace, List.append_assoc]
  replayed := by rw [h'.replayed, h.replayed, Store.run_append]
  oneWay := Store.oneWay_append.mpr ⟨h.oneWay, h.replayed ▸ h'.oneWay⟩

theorem Wrote.silent {w w' : World I M} {ws : List (Write I M)} (ht : w'.trace = w.trace ++ ws)
    (hr : w'.registers = w.registers) (hws : ∀ e ∈ ws, e.silent = true) : Wrote r w w' ws := by
  obtain ⟨ho, hs⟩ := oneWay_of_silent hws w.registers
  exact ⟨ht, hr.trans hs.symm, ho⟩

end

theorem oneWay_setMembers {ms : List M} (id : I) (s : Registers I M) (hnd : ms.Nodup)
    (hms : ∀ m ∈ ms, m ∉ s.memberIndex.keys) :
    unlocked.OneWay Grows s (ms.map (.setMember · id)) ∧
      unlocked.run s (ms.map (.setMember · id)) =
        { s with memberIndex := s.memberIndex.setAll ms id } := by
  induction ms generalizing s with
  | nil => exact ⟨trivial, rfl⟩
  | cons m ms ih =>
    obtain ⟨hm, hnd⟩ := List.nodup_cons.mp hnd
    have hfresh : ∀ m' ∈ ms, m' ∉ (unlocked.apply s (.setMember m id)).memberIndex.keys := by
      intro m' hm' hk
      rcases Dict.mem_keys_set.mp hk with rfl | hk
      · exact hm hm'
      · exact hms m' (List.mem_cons_of_mem m hm') hk
    obtain ⟨ho, hr⟩ := ih _ hnd hfresh
    refine ⟨⟨fun q hq => ?_, ho⟩, hr⟩
    obtain ⟨reader, query⟩ := q
    cases query with
    | len => cases hq
    | contains v =>
      obtain rfl : v = .hashable m := hq
      have hold : s.memberIndex.contains m = false :=
        Dict.contains_eq_false_iff.mpr (hms m List.mem_cons_self)
      have hnew : (s.memberIndex.set m id).contains m = true :=
        Dict.contains_iff.mpr (Dict.mem_keys_set.mpr (Or.inl rfl))
      simp only [unlocked, Registers.read, Write.apply, Grows, Answer.size, hold, hnew]
      decide

theorem oneWay_delMembers {ms : List M} (s : Registers I M) (hnd : ms.Nodup)
    (hms : ∀ m ∈ ms, m ∈ s.memberIndex.keys) :
    unlocked.OneWay Shrinks s (ms.map .delMember) ∧
      unlocked.run s (ms.map .delMember) =
        { s with memberIndex := s.memberIndex.eraseAll ms } := by
  induction ms generalizing s with
  | nil => exact ⟨trivial, rfl⟩
  | cons m ms ih =>
    obtain ⟨hm, hnd⟩ := List.nodup_cons.mp hnd
    have hrest : ∀ m' ∈ ms, m' ∈ (unlocked.apply s (.delMember m)).memberIndex.keys := by
      intro m' hm'
      have hne : m' ≠ m := fun he => hm (he ▸ hm')
      exact Dict.mem_keys_erase.mpr ⟨hne, hms m' (List.mem_cons_of_mem m hm')⟩
    obtain ⟨ho, hr⟩ := ih _ hnd hrest
    refine ⟨⟨fun q hq => ?_, ho⟩, hr⟩
    obtain ⟨reader, query⟩ := q
    cases query with
    | len => cases hq
    | contains v =>
      obtain rfl : v = .hashable m := hq
      have hold : s.memberIndex.contains m = true :=
        Dict.contains_iff.mpr (hms m List.mem_cons_self)
      have hnew : (s.memberIndex.erase m).contains m = false :=
        Dict.contains_eq_false_iff.mpr fun hk => (Dict.mem_keys_erase.mp hk).1 rfl
      simp only [unlocked, Registers.read, Write.apply, Shrinks, Answer.size, hold, hnew]
      decide

theorem Arrival.wrote {w w' : World I M} (h : Arrival w w') : ∃ ws, Wrote Grows w w' ws := by
  obtain @⟨id, g, hgid, hready, hid, hms⟩ := h
  let s : Registers I M := unlocked.apply w.registers (.setGroup id w.objects.length)
  obtain ⟨ho, hr⟩ := oneWay_setMembers id s g.members_nodup hms
  refine ⟨.setGroup id w.objects.length :: g.members.map (.setMember · id), rfl, hr.symm, ?_, ho⟩
  rintro ⟨reader, query⟩ hq
  cases query with
  | len =>
    have hl := Dict.length_set_of_not_mem hid w.objects.length
    exact (Nat.lt_succ_self _).trans_eq hl.symm
  | contains v => cases hq

theorem withdrawn_wrote {w : World I M} (hw : Consistent w) {id : I} {h : Handle} {g : Group I M}
    (hid : w.groups.get? id = some h) (hg : w.objects[h]? = some g) :
    ∃ ws, Wrote Shrinks w (w.withdrawn id h g) ws := by
  let s : Registers I M := unlocked.apply w.registers (.delGroup id)
  obtain ⟨ho, hr⟩ := oneWay_delMembers s g.members_nodup (hw.member_mem_keys hid hg)
  have hdel : Wrote Shrinks w { w with
      groups := w.groups.erase id
      memberIndex := w.memberIndex.eraseAll g.members
      trace := w.trace ++ .delGroup id :: g.members.map .delMember }
      (.delGroup id :: g.members.map .delMember) := by
    refine ⟨rfl, hr.symm, ?_, ho⟩
    rintro ⟨reader, query⟩ hq
    cases query with
    | len =>
      have hl := Dict.length_erase_of_mem (Dict.mem_keys_of_get? hid)
      exact (Nat.lt_succ_self _).trans_eq hl
    | contains v => cases hq
  refine ⟨_, hdel.trans (.silent rfl rfl ?_)⟩
  intro e he
  split at he
  · rw [List.mem_singleton.mp he]
    rfl
  · cases he

theorem Move.wrote {w w' : World I M} (hw : Consistent w) (h : Move w w') :
    ∃ ws, Wrote Shrinks w w' ws := by
  cases h with
  | @mark h g m hg hm =>
    rw [World.marked]
    split
    · exact ⟨[.setReady h h, .push h], .silent rfl rfl (by simp [Write.silent])⟩
    · exact ⟨[], .silent (List.append_nil _).symm rfl (by simp)⟩
  | @remove id h g hid hg =>
    obtain ⟨ws, hws⟩ := withdrawn_wrote hw hid hg
    rw [World.removed, World.compacted]
    split
    · split
      · exact ⟨ws, hws⟩
      · exact ⟨_, hws.trans (.silent rfl rfl (by simp [Write.silent]))⟩
    · exact ⟨ws, hws⟩
  | clear =>
    refine ⟨[.clearGroups, .clearMembers, .clearReady, .clearHeap], rfl, rfl, ?_, ?_, ?_⟩
    · rintro ⟨reader, query⟩ hq
      cases query with
      | len => exact Nat.pos_of_ne_zero hq
      | contains v => cases hq
    · rintro ⟨reader, query⟩ hq
      cases query with
      | len => cases hq
      | contains v =>
        obtain ⟨m, hm, rfl⟩ := hq
        have hold : w.memberIndex.contains m = true := Dict.contains_iff.mpr hm
        have hnew : (Dict.empty : Dict M I).contains m = false := rfl
        simp only [unlocked, World.registers, Registers.read, Write.apply, Shrinks, Answer.size,
          hold, hnew]
        decide
    · exact (oneWay_of_silent (by simp [Write.silent]) _).1
  | @pop top rest hh hs => exact ⟨[.popStale top], .silent rfl rfl (by simp [Write.silent])⟩

theorem Moves.wrote {w w' : World I M} (hw : Consistent w) (h : Moves w w') :
    ∃ ws, Wrote Shrinks w w' ws := by
  induction h with
  | refl => exact ⟨[], .refl w⟩
  | tail hms hm ih =>
    obtain ⟨ws, hws⟩ := ih
    obtain ⟨ws', hws'⟩ := hm.wrote (Moves.consistent hms hw)
    exact ⟨ws ++ ws', hws.trans hws'⟩

/-- Whatever one body changes of what can be read, it changes one way. -/
theorem Evolves.wrote {op : Op I M} {w w' : World I M} (hw : Consistent w)
    (h : Evolves op w w') : ∃ ws, Wrote Grows w w' ws ∨ Wrote Shrinks w w' ws := by
  cases op with
  | admitGroup =>
    rcases h with rfl | h
    · exact ⟨[], Or.inl (.refl w')⟩
    · exact h.wrote.imp fun _ => Or.inl
  | _ => exact (Moves.wrote hw h).imp fun _ => Or.inr

/-- The writes of a body, in the order it makes them. -/
def bodyWrites (w : World I M) (op : Op I M) : List (Write I M) :=
  (step w op).2.trace.drop w.trace.length

theorem step_wrote {w : World I M} (hw : Consistent w) (op : Op I M) :
    Wrote Grows w (step w op).2 (bodyWrites w op) ∨
      Wrote Shrinks w (step w op).2 (bodyWrites w op) := by
  obtain ⟨ws, h⟩ := (step_simulated hw op).evolves.wrote hw
  have hws : bodyWrites w op = ws := by
    have ht : (step w op).2.trace = w.trace ++ ws := h.elim Wrote.trace Wrote.trace
    rw [bodyWrites, ht, List.drop_left]
  rwa [hws]

/-- One call, with what happens while its body runs. -/
abbrev Body (I M : Type) := Op I M × List (Event (Write I M) (Read M))

/-- Bodies that run one after the other, with reads between any two of their writes. -/
def Interleaving : World I M → List (Body I M) → Prop
  | _, [] => True
  | w, (op, es) :: bodies => writes es = bodyWrites w op ∧ Interleaving (step w op).2 bodies

instance Interleaving.decidable :
    (w : World I M) → (bodies : List (Body I M)) → Decidable (Interleaving w bodies)
  | _, [] => isTrue trivial
  | w, (op, es) :: bodies =>
    haveI := Interleaving.decidable (step w op).2 bodies
    inferInstanceAs
      (Decidable (writes es = bodyWrites w op ∧ Interleaving (step w op).2 bodies))

def seenBy (reader : Nat) (bodies : List (Body I M)) : List (List (Event (Write I M) (Read M))) :=
  bodies.map fun b => only (fun r => r.reader = reader) b.2

/-- No reader looks at an entry that the body under way has written and, then or later in it, at
one that it is still to write. -/
def OrderlyReads (w : World I M) (seen : List (List (Event (Write I M) (Read M)))) : Prop :=
  unlocked.EachBody (fun s es => unlocked.Orderly s [] es) w.registers seen

instance (w : World I M) (seen : List (List (Event (Write I M) (Read M)))) :
    Decidable (OrderlyReads w seen) :=
  inferInstanceAs (Decidable (unlocked.EachBody _ _ _))

theorem seenBy_atomic_iff {w : World I M} (hw : Consistent w) {bodies : List (Body I M)}
    (hb : Interleaving w bodies) (reader : Nat) :
    unlocked.EachBody unlocked.Atomic w.registers (seenBy reader bodies) ↔
      OrderlyReads w (seenBy reader bodies) := by
  induction bodies generalizing w with
  | nil => exact Iff.rfl
  | cons b bodies ih =>
    obtain ⟨op, es⟩ := b
    obtain ⟨hes, hrest⟩ := hb
    have hws : writes (only (fun r => decide (r.reader = reader)) es) = bodyWrites w op := by
      rw [writes_only, hes]
    have hnext := ih (step_consistent hw op) hrest
    refine and_congr ?_ ?_
    · rcases step_wrote hw op with h | h
      · exact Store.OneWay.atomic_iff_orderly (hws ▸ h.oneWay)
      · exact Store.OneWay.atomic_iff_orderly (hws ▸ h.oneWay)
    · have hrun : unlocked.run w.registers (bodyWrites w op) = (step w op).2.registers :=
        ((step_wrote hw op).elim Wrote.replayed Wrote.replayed).symm
      rw [hws, hrun]
      exact hnext

/-- In every run, orderly reads are answered as if each had been made between two whole
operations. Only in such runs can the reads be moved to the start or the end of the operations
they fell into, in the order the reader made them. -/
theorem orderly_reads_explained (strictOrder : Bool) {bodies : List (Body I M)}
    (hb : Interleaving (World.init strictOrder) bodies) (reader : Nat) :
    let w : World I M := World.init strictOrder
    (OrderlyReads w (seenBy reader bodies) →
      unlocked.Explained w.registers (seenBy reader bodies)) ∧
    (unlocked.EachBody unlocked.Atomic w.registers (seenBy reader bodies) ↔
      OrderlyReads w (seenBy reader bodies)) := by
  have hiff := seenBy_atomic_iff (init_consistent strictOrder) hb reader
  exact ⟨fun h => Store.explained_of_atomic (hiff.mpr h), hiff⟩

/-- A reader looks for the members of a group of two while the first one is being written, and
again after the second. -/
theorem orderly_reads_explained_twice :
    let bodies : List (Body Nat Nat) :=
      [(.admitGroup (.hashable 0) (.iterable [.hashable 1, .hashable 2]),
        [.write (.setGroup 0 0), .read ⟨0, .contains (.hashable 1)⟩, .write (.setMember 1 0),
          .read ⟨0, .contains (.hashable 2)⟩, .write (.setMember 2 0), .read ⟨0, .len⟩])]
    unlocked.Explained (World.init true : World Nat Nat).registers (seenBy 0 bodies) := by
  intro bodies
  have hb : Interleaving (World.init true) bodies := by decide
  exact (orderly_reads_explained true hb 0).1 (by decide)

/-- A reader finds the first member of a group that is being admitted and misses the second: no
order of whole operations explains it. -/
theorem half_admitted_not_explained :
    let bodies : List (Body Nat Nat) :=
      [(.admitGroup (.hashable 0) (.iterable [.hashable 1, .hashable 2]),
        [.write (.setGroup 0 0), .write (.setMember 1 0), .read ⟨0, .contains (.hashable 1)⟩,
          .read ⟨0, .contains (.hashable 2)⟩, .write (.setMember 2 0)])]
    Interleaving (World.init true) bodies ∧
      ¬ unlocked.Explained (World.init true : World Nat Nat).registers (seenBy 0 bodies) := by
  intro bodies
  have hb : Interleaving (World.init true) bodies := by decide
  have hdisorderly : ¬ OrderlyReads (World.init true) (seenBy 0 bodies) := by decide
  have hiff := seenBy_atomic_iff (init_consistent true) hb 0
  refine ⟨hb, fun h => hdisorderly (hiff.mp ⟨?_, trivial⟩)⟩
  exact Store.explained_singleton.mp h

end Tito
