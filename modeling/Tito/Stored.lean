import Tito.Slots
import Tito.Signals

namespace Tito.Slots

open Lib Lib.Memory

/-- The slot stores the group: its texts, flags and counters. -/
structure Stores (g : Group) (e : Entry CString CString) : Prop where
  id : ∃ id, e.groupId = .hashable id ∧ Stored g.id 0 id.chars
  memberCount : g.memberCount = e.flags.length
  members : Holds (fun name f => Stored name 0 f.1.chars) g.members e.flags
  ready : Holds (fun r f => r = if f.2 then 1 else 0) g.ready e.flags
  readyCount : g.readyCount = e.flags.countP Prod.snd
  nodup : e.members.Nodup

/-- The slots in use write the line, in its order. -/
structure Keeps (c : Queue) (q : PlainQueue CString CString) : Prop where
  valid : q.Valid
  policy : q.strictOrder = decide (c.strictOrder ≠ 0)
  groupCount : c.groupCount = q.waiting.length
  groups : Holds Stores c.groups q.waiting

def printedName (v : Value CString) : List UInt8 := v.toOption.elim [] CString.chars

def printed (e : Entry CString CString) : Shown :=
  (printedName e.groupId, e.flags.map fun f => (f.1.chars, f.2))

variable {g : Group} {e : Entry CString CString}

theorem Stores.count_toNat (h : Stores g e) : g.memberCount.toNat = e.flags.length := by
  rw [h.memberCount, Int.toNat_natCast]

theorem Stores.findMember (h : Stores g e) (m : CString) :
    findMember g m = some (e.flags.findIdx? fun f => decide (f.1 = m)) := by
  rw [Slots.findMember, h.count_toNat]
  refine scan_zero fun j f hf => ?_
  obtain ⟨name, hname, hstored⟩ := h.members j f hf
  rw [hname, Option.bind_eq_bind, Option.bind_some, sameText_eq hstored f.1.no_nul m.no_nul]
  simp only [CString.chars_injective.eq_iff]

theorem isSome_findIdx?_member (e : Entry CString CString) (m : CString) :
    (e.flags.findIdx? fun f => decide (f.1 = m)).isSome = decide (m ∈ e.members) := by
  rw [List.findIdx?_isSome, Entry.members, Bool.eq_iff_iff, List.any_eq_true, decide_eq_true_iff,
    List.mem_map]
  simp only [decide_eq_true_eq]

theorem Stores.contains (h : Stores g e) (m : CString) :
    groupContains g m = some (decide (m ∈ e.members)) := by
  rw [groupContains, h.findMember, ← isSome_findIdx?_member]
  rfl

theorem Stores.isReady (h : Stores g e) : groupIsReady g = e.ready := by
  rw [groupIsReady, h.readyCount, h.memberCount, Entry.ready, Bool.eq_iff_iff, beq_iff_eq,
    Int.natCast_inj, List.countP_eq_length, List.all_eq_true]

theorem Stores.shown (h : Stores g e) : g.shown = some (printed e) := by
  obtain ⟨id, hid, hstored⟩ := h.id
  have hflags : collect (fun i => do
      return (← textAt (← g.members[i]?) 0, (← g.ready[i]?) != 0)) e.flags.length =
      some (e.flags.map fun f => (f.1.chars, f.2)) := by
    refine collect_eq fun j f hf => ?_
    obtain ⟨name, hname, hn⟩ := h.members j f hf
    obtain ⟨r, hr, hrf⟩ := h.ready j f hf
    rw [hname, hr, Option.bind_eq_bind, Option.bind_some, textAt_eq hn f.1.no_nul]
    cases hb : f.2 <;> simp [hrf, hb]
  rw [Group.shown, h.count_toNat, hflags, Option.bind_eq_bind, Option.bind_some,
    textAt_eq hstored id.no_nul, printed, hid]
  rfl

theorem shownGroups_eq {n : Nat} {groups : Vector Group n} {es : List (Entry CString CString)}
    (h : Holds Stores groups es) : shownGroups groups es.length = some (es.map printed) := by
  refine collect_eq fun j e he => ?_
  obtain ⟨g, hg, hs⟩ := h j e he
  rw [hg, Option.bind_eq_bind, Option.bind_some, hs.shown]


variable {c : Queue} {q : PlainQueue CString CString}

namespace Keeps

theorem count_toNat (h : Keeps c q) : c.groupCount.toNat = q.waiting.length := by
  rw [h.groupCount, Int.toNat_natCast]

theorem with_error (h : Keeps c q) (error : Message) : Keeps { c with error := error } q :=
  ⟨h.valid, h.policy, h.groupCount, h.groups⟩

theorem groupOf (h : Keeps c q) (m : CString) :
    groupOf c m = some (q.waiting.findIdx? fun e => decide (m ∈ e.members)) := by
  rw [Slots.groupOf, h.count_toNat]
  refine scan_zero fun j e he => ?_
  obtain ⟨g, hg, hs⟩ := h.groups j e he
  rw [hg, Option.bind_eq_bind, Option.bind_some, hs.contains]

theorem contains (h : Keeps c q) (m : CString) :
    contains c m = some (q.groupOf m).isSome := by
  have hsome : (q.groupOf m).isSome = q.waiting.any fun e => decide (m ∈ e.members) := by
    rw [PlainQueue.groupOf, Bool.eq_iff_iff, List.find?_isSome, List.any_eq_true]
  rw [Slots.contains, h.groupOf, Option.bind_eq_bind, Option.bind_some, List.findIdx?_isSome, hsome]
  rfl

theorem findGroup (h : Keeps c q) (id : CString) :
    findGroup c id = some (q.waiting.findIdx? fun e => decide (e.groupId = .hashable id)) := by
  rw [Slots.findGroup, h.count_toNat]
  refine scan_zero fun j e he => ?_
  obtain ⟨g, hg, hs⟩ := h.groups j e he
  obtain ⟨id', hid', hstored⟩ := hs.id
  rw [hg, Option.bind_eq_bind, Option.bind_some, sameText_eq hstored id'.no_nul id.no_nul, hid']
  simp only [CString.chars_injective.eq_iff, Value.hashable.injEq]

theorem peekIndex (h : Keeps c q) : ∃ o, peekIndex c = some o ∧ o.bind (q.waiting[·]?) = q.peek ∧
    (o = none ↔ q.peek = none) := by
  have hready : scan (fun g => do return groupIsReady (← c.groups[g]?)) 0 c.groupCount.toNat =
      some (q.waiting.findIdx? Entry.ready) := by
    rw [h.count_toNat]
    refine scan_zero fun j e he => ?_
    obtain ⟨g, hg, hs⟩ := h.groups j e he
    rw [hg, Option.bind_eq_bind, Option.bind_some, hs.isReady]
    rfl
  rw [Slots.peekIndex, PlainQueue.peek, h.policy]
  by_cases hzero : c.groupCount = 0
  · have hnil : q.waiting = [] := by
      have := h.groupCount
      exact List.length_eq_zero_iff.mp (by omega)
    exact ⟨none, if_pos hzero, by simp [hnil], by simp [hnil]⟩
  rw [if_neg hzero]
  by_cases hstrict : c.strictOrder ≠ 0
  · rw [if_pos hstrict, decide_eq_true hstrict, if_pos rfl]
    obtain ⟨e, rest, hl⟩ : ∃ e rest, q.waiting = e :: rest := by
      refine List.exists_cons_of_ne_nil fun hnil => hzero ?_
      rw [h.groupCount, hnil]
      rfl
    obtain ⟨g, hg, hs⟩ := h.groups 0 e (by rw [hl]; rfl)
    rw [hg, hl, Option.bind_eq_bind, Option.bind_some, hs.isReady]
    cases hr : e.ready <;> simp [hr, Option.filter]
  · rw [if_neg hstrict, decide_eq_false hstrict, if_neg Bool.false_ne_true]
    refine ⟨_, hready, List.find?_eq_bind_findIdx?_getElem?.symm, ?_⟩
    rw [List.findIdx?_eq_none_iff, List.find?_eq_none]
    simp only [Bool.not_eq_true]

theorem removeAt (h : Keeps c q) {i : Nat} {e : Entry CString CString}
    (he : q.waiting[i]? = some e) :
    ∃ c', removeAt c i = some c' ∧ Keeps c' (q.remove e) := by
  obtain ⟨hi, hget⟩ := List.getElem?_eq_some_iff.mp he
  have hsplit : q.waiting = q.waiting.take i ++ e :: q.waiting.drop (i + 1) := by
    rw [← hget, List.getElem_cons_drop, List.take_append_drop]
  have hrest : (q.remove e).waiting = q.waiting.eraseIdx i := by
    rw [h.valid.waiting_remove hsplit, List.eraseIdx_eq_take_drop_succ]
  obtain ⟨groups, hmove, hgroups⟩ := h.groups.moveDown hi
  have hcount : (c.groupCount - 1 - i).toNat = q.waiting.length - 1 - i := by
    have := h.groupCount
    omega
  refine ⟨{ c with groups := groups, groupCount := c.groupCount - 1 }, ?_, h.valid.remove e,
    h.policy, ?_, ?_⟩
  · rw [Slots.removeAt, hcount, hmove]
    rfl
  · have := h.groupCount
    rw [hrest, List.length_eraseIdx_of_lt hi]
    dsimp only
    omega
  · rw [hrest]
    exact hgroups

theorem release_of_none (h : Keeps c q) (hp : q.peek = none) : release c = some (none, c) := by
  obtain ⟨o, ho, -, hnone⟩ := h.peekIndex
  rw [release, ho, hnone.mpr hp]
  rfl

theorem release_of_some (h : Keeps c q) {e : Entry CString CString} (hp : q.peek = some e) :
    ∃ g c', release c = some (some g, c') ∧ Stores g e ∧ Keeps c' (q.remove e) := by
  obtain ⟨o, ho, hbind, hnone⟩ := h.peekIndex
  cases o with
  | none =>
    rw [hnone.mp rfl] at hp
    cases hp
  | some i =>
    rw [hp] at hbind
    obtain ⟨g, hg, hs⟩ := h.groups i e hbind
    obtain ⟨c', hc', hk⟩ := h.removeAt hbind
    refine ⟨g, c', ?_, hs, hk⟩
    simp only [release, ho, hg, hc', Option.bind_eq_bind, Option.bind_some]
    rfl

/-- The loop fills the caller's array with the groups that so many releases hand out. -/
theorem releaseAllLoop {n : Nat} (h : Keeps c q) (room : Nat) {out : Vector Group n}
    {es : List (Entry CString CString)} (hout : Holds Stores out es) (hn : es.length + room ≤ n) :
    ∃ out' c', releaseAllLoop room es.length out c =
        some ((es ++ (q.releaseUpTo room).1).length, out', c') ∧
      Holds Stores out' (es ++ (q.releaseUpTo room).1) ∧ Keeps c' (q.releaseUpTo room).2 := by
  induction room generalizing c q out es with
  | zero => exact ⟨out, c, by simp [Slots.releaseAllLoop, PlainQueue.releaseUpTo],
      by simpa [PlainQueue.releaseUpTo] using hout, h⟩
  | succ room ih =>
    rw [PlainQueue.releaseUpTo]
    cases hp : q.peek with
    | none =>
      refine ⟨out, c, ?_, by simpa using hout, h⟩
      simp [Slots.releaseAllLoop, h.release_of_none hp]
    | some e =>
      obtain ⟨g, c₁, hr, hs, h₁⟩ := h.release_of_some hp
      have hlt : es.length < n := by omega
      obtain ⟨out', c', hloop, hout', hk⟩ := ih h₁ (hout.concat hlt hs) (by simp; omega)
      refine ⟨out', c', ?_, by simpa using hout', hk⟩
      rw [Slots.releaseAllLoop, hr, Option.bind_eq_bind, Option.bind_some]
      dsimp only
      rw [write_of_lt hlt]
      simpa using hloop

end Keeps

theorem getElem?_inj_of_handles (hq : q.Valid) {i j : Nat} {e : Entry CString CString}
    {e' : Entry CString CString} (hi : q.waiting[i]? = some e) (hj : q.waiting[j]? = some e')
    (h : e'.handle = e.handle) : j = i := by
  obtain rfl := hq.handle_unique (List.mem_of_getElem? hj) (List.mem_of_getElem? hi) h
  exact (List.getElem?_inj (List.getElem?_eq_some_iff.mp hj).1
    (List.Nodup.of_map _ hq.handles_nodup)).mp (hj.trans hi.symm)

theorem waiting_marks (hq : q.Valid) {i : Nat} (he : q.waiting[i]? = some e)
    {marks : List (Handle × CString)} (hmarks : ∀ p ∈ marks, p.1 = e.handle) :
    (q.marks marks).waiting = q.waiting.set i (e.marked marks) := by
  refine List.ext_getElem? fun j => ?_
  rw [PlainQueue.marks, List.getElem?_map, List.getElem?_set]
  have hi := (List.getElem?_eq_some_iff.mp he).1
  split
  · rename_i hij
    subst hij
    rw [he, Option.map_some]
  · rename_i hij
    cases hj : q.waiting[j]? with
    | none => rfl
    | some e' =>
      have hne : e'.handle ≠ e.handle := fun h => hij (getElem?_inj_of_handles hq he hj h).symm
      have hno : ∀ f : CString × Bool, (e'.handle, f.1) ∉ marks := fun f hf => hne (hmarks _ hf)
      simp [Entry.marked, hno]

theorem Keeps.replace (h : Keeps c q) {i : Nat} (he : q.waiting[i]? = some e)
    {marks : List (Handle × CString)} (hmarks : ∀ p ∈ marks, p.1 = e.handle)
    (hs : Stores g (e.marked marks)) (error : Message) :
    ∃ groups, write c.groups i g = some groups ∧
      Keeps { c with groups := groups, error := error } (q.marks marks) := by
  have hi := (List.getElem?_eq_some_iff.mp he).1
  have hle := h.groups.length_le
  have hn : i < maxGroups := by omega
  refine ⟨_, write_of_lt hn, h.valid.marks _, h.policy, ?_, ?_⟩
  · rw [PlainQueue.marks, List.length_map]
    exact h.groupCount
  · rw [waiting_marks h.valid he hmarks]
    exact h.groups.set hn hs

theorem Stores.marked (h : Stores g e) (marks : List (Handle × CString))
    (ready : Vector Int maxMembers) (readyCount : Int)
    (hready : Holds (fun r f => r = if f.2 then 1 else 0) ready (e.marked marks).flags)
    (hcount : readyCount = (e.marked marks).flags.countP Prod.snd) :
    Stores { g with ready := ready, readyCount := readyCount } (e.marked marks) where
  id := h.id
  memberCount := by
    rw [Entry.marked, List.length_map]
    exact h.memberCount
  members := by
    refine h.members.map fun f _ name hn => ?_
    split <;> exact hn
  ready := hready
  readyCount := hcount
  nodup := by
    rw [Entry.members_marked]
    exact h.nodup

theorem flags_marked (hnd : e.members.Nodup) {i : Nat} {f : CString × Bool}
    (hf : e.flags[i]? = some f) :
    (e.marked [(e.handle, f.1)]).flags = e.flags.set i (f.1, true) := by
  refine List.ext_getElem? fun j => ?_
  rw [Entry.marked, List.getElem?_map, List.getElem?_set]
  have hi := (List.getElem?_eq_some_iff.mp hf).1
  split
  · rename_i hij
    subst hij
    rw [hf]
    simp
  · rename_i hij
    cases hj : e.flags[j]? with
    | none => rfl
    | some f' =>
      have hne : f'.1 ≠ f.1 := by
        intro hsame
        have hm : e.members[i]? = some f.1 := by rw [Entry.members, List.getElem?_map, hf]; rfl
        have hm' : e.members[j]? = some f.1 := by
          rw [Entry.members, List.getElem?_map, hj, ← hsame]
          rfl
        have hlt : i < e.members.length := by rwa [Entry.members, List.length_map]
        exact hij ((List.getElem?_inj hlt hnd).mp (hm.trans hm'.symm))
      simp [hne]

theorem Stores.flag (h : Stores g e) {i : Nat} {f : CString × Bool} (hf : e.flags[i]? = some f) :
    ∃ g', flag g i = some g' ∧ Stores g' (e.marked [(e.handle, f.1)]) := by
  obtain ⟨r, hr, hrf⟩ := h.ready i f hf
  have hflags := flags_marked h.nodup hf
  have hi := (List.getElem?_eq_some_iff.mp hf).1
  have hle := h.ready.length_le
  cases hb : f.2 with
  | true =>
    have hsame : e.marked [(e.handle, f.1)] = e := by
      have hset : e.flags.set i (f.1, true) = e.flags := by
        rw [← hb, ← (List.getElem?_eq_some_iff.mp hf).2]
        exact List.set_getElem_self hi
      calc e.marked [(e.handle, f.1)]
          = ⟨e.handle, e.groupId, (e.marked [(e.handle, f.1)]).flags⟩ := rfl
        _ = e := by rw [hflags, hset]
    refine ⟨g, ?_, by rwa [hsame]⟩
    rw [hb, if_pos rfl] at hrf
    rw [Slots.flag, hr, hrf]
    rfl
  | false =>
    rw [hb, if_neg Bool.false_ne_true] at hrf
    have hn : i < maxMembers := by omega
    refine ⟨_, ?_, h.marked [(e.handle, f.1)] (g.ready.set i 1 hn) (g.readyCount + 1) ?_ ?_⟩
    · rw [Slots.flag, hr, hrf, write_of_lt hn]
      rfl
    · rw [hflags]
      exact h.ready.set hn rfl
    · have hget : e.flags[i] = f := (List.getElem?_eq_some_iff.mp hf).2
      rw [hflags, List.countP_set hi, hget, hb, h.readyCount]
      simp

/-- The reason that the example gives for what the package calls a `TitoError`. -/
def said : TitoError CString CString → List UInt8
  | .noMembers id => literal "group " ++ printedName id ++ literal " must contain at least one member"
  | .duplicateMembers id _ =>
    literal "group " ++ printedName id ++ literal " contains duplicate members"
  | .notAMember m id _ => printedName m ++ literal " is not a member of group " ++ printedName id
  | .idInQueue id => literal "group " ++ id.chars ++ literal " is already in the queue"
  | .membersInQueue ms _ =>
    literal "members already in the queue:" ++ ms.flatMap fun m => literal " " ++ m.chars
  | .memberNotQueued m => printedName m ++ literal " is not in the queue"
  | .groupNotQueued id => literal "group " ++ printedName id ++ literal " is not in the queue"
  | _ => []

theorem snprintf_eq (buf : Message) (text : List UInt8) :
    ∃ buf', snprintf buf text = some buf' ∧ Stored buf' 0 (clip maxMsg text) := by
  obtain ⟨buf', hput, hs⟩ := put_zero (by decide) buf text
  exact ⟨buf', by rw [snprintf, hput]; rfl, hs⟩

theorem Stores.groupMarkReady_of_mem (h : Stores g e) {m : CString} (hm : m ∈ e.members)
    (err : Message) :
    ∃ g', groupMarkReady g m err =
        some (if (e.marked [(e.handle, m)]).ready then 1 else 0, g', err) ∧
      Stores g' (e.marked [(e.handle, m)]) := by
  have hsome := isSome_findIdx?_member e m
  rw [decide_eq_true hm] at hsome
  obtain ⟨i, hi⟩ := Option.isSome_iff_exists.mp hsome
  obtain ⟨hlt, hfound, -⟩ := List.findIdx?_eq_some_iff_getElem.mp hi
  obtain ⟨g', hflag, hs⟩ := h.flag (List.getElem?_eq_getElem hlt)
  rw [of_decide_eq_true hfound] at hs
  refine ⟨g', ?_, hs⟩
  simp only [groupMarkReady, h.findMember, hi, hflag, Option.bind_eq_bind, Option.bind_some,
    hs.isReady]
  rfl

theorem Stores.groupMarkReady_of_not_mem (h : Stores g e) {m : CString} (hm : m ∉ e.members)
    (err : Message) :
    ∃ err', groupMarkReady g m err = some (-1, g, err') ∧
      Stored err' 0 (clip maxMsg (said (.notAMember (.hashable m) e.groupId e.members))) := by
  have hnone := isSome_findIdx?_member e m
  rw [decide_eq_false hm, Option.isSome_eq_false_iff, Option.isNone_iff_eq_none] at hnone
  obtain ⟨id, hid, hstored⟩ := h.id
  obtain ⟨err', hprint, hs⟩ :=
    snprintf_eq err (m.chars ++ literal " is not a member of group " ++ id.chars)
  refine ⟨err', ?_, by rw [hid]; exact hs⟩
  simp only [groupMarkReady, h.findMember, hnone, textAt_eq hstored id.no_nul, hprint,
    Option.bind_eq_bind, Option.bind_some]
  rfl

theorem Stores.groupReady (h : Stores g e) : ∃ ready,
    each (fun i ready => write ready i 1) 0 g.memberCount.toNat g.ready = some ready ∧
      Stores { g with ready := ready, readyCount := g.memberCount }
        (e.marked (e.members.map fun m => (e.handle, m))) := by
  have hle := h.ready.length_le
  have hround : ∀ (done : List (CString × Bool)) (f : CString × Bool) (rest : List (CString × Bool))
      (ready : Vector Int maxMembers), e.flags = done ++ f :: rest →
      Holds (fun r (_ : CString × Bool) => r = 1) ready done →
      ∃ ready', write ready (0 + done.length) 1 = some ready' ∧
        Holds (fun r (_ : CString × Bool) => r = 1) ready' (done ++ [f]) := by
    intro done f rest ready hl hdone
    have hn : done.length < maxMembers := by
      have := congrArg List.length hl
      simp only [List.length_append, List.length_cons] at this
      omega
    rw [Nat.zero_add]
    exact ⟨_, write_of_lt hn, hdone.concat hn rfl⟩
  have hrun : ∃ ready, each (fun i ready => write ready i 1) 0 e.flags.length g.ready = some ready ∧
      Holds (fun r (_ : CString × Bool) => r = 1) ready e.flags :=
    each_keeps (fun done ready => Holds (fun r (_ : CString × Bool) => r = 1) ready done) hround
      Holds.nil
  obtain ⟨ready, hrun, hones⟩ := hrun
  have hmarked : ∀ f ∈ e.flags, (e.handle, f.1) ∈ e.members.map fun m => (e.handle, m) :=
    fun f hf => List.mem_map_of_mem (List.mem_map_of_mem hf)
  refine ⟨ready, by rw [h.count_toNat, hrun], h.marked _ _ _ ?_ ?_⟩
  · refine hones.map fun f hf r hr => ?_
    rw [if_pos (hmarked f hf), hr]
    rfl
  · have hall : ∀ f ∈ (e.marked (e.members.map fun m => (e.handle, m))).flags, f.2 = true := by
      intro f hf
      obtain ⟨f', hf', rfl⟩ := List.mem_map.mp hf
      rw [if_pos (hmarked f' hf')]
    rw [List.countP_eq_length.mpr hall, Entry.marked, List.length_map]
    exact h.memberCount

end Tito.Slots
