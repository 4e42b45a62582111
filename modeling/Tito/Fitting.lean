import Tito.Accesses
import Tito.Filed
import Tito.Misuse

namespace Tito.Slots

open Lib Lib.Memory Lib.Mealy

variable {c : Queue} {q : PlainQueue CString CString}

/-- Why the example does not take in a group that the package might: a name, the group or the line
is longer than its arrays. The first two checks of the package come before the last one here. -/
def unfit (waiting : Nat) (id : CString) (ms : List CString) : Option (List UInt8) :=
  if ms = [] then none
  else if !nameFits id then some (literal "group " ++ id.chars ++ literal " is too long")
  else match ms.find? fun m => !nameFits m with
  | some m => some (literal "member " ++ m.chars ++ literal " is too long")
  | none =>
    if ms.Nodup ∧ (maxMembers < ms.length ∨ maxGroups ≤ waiting) then
      some (literal "group " ++ id.chars ++ literal " does not fit in the queue")
    else none

/-- An outcome of the package as the example prints it. -/
def ending : Outcome CString CString → Ending
  | .ok .none => .ok .none
  | .ok (.bool b) => .ok (.bool b)
  | .ok (.number n) => .ok (.number n)
  | .ok (.group e) => .ok (.group (printed e))
  | .ok (.groups es) => .ok (.groups (es.map printed))
  | .error (.tito err) => .error (clip maxMsg (said err))
  | .error _ => .error []

section

variable {σ : Type}

/-- One call of the package after another to `release`, until it has nothing more or `n` are made. -/
def releases (step : Machine σ (Op CString CString) (Outcome CString CString)) :
    Nat → σ → List (Entry CString CString) × σ
  | 0, s => ([], s)
  | n + 1, s =>
    match step s .release with
    | (.ok (.group e), s') => (e :: (releases step n s').1, (releases step n s').2)
    | (_, s') => ([], s')

/-- The package's queue behind the limits of the example: the calls with arguments that fit are
passed on, and a pointer stands for the group that is now at its place in the line. -/
def limited (step : Machine σ (Op CString CString) (Outcome CString CString))
    (line : σ → List Handle) : Machine σ Call Ending := fun s call =>
  let pass (op : Op CString CString) : Ending × σ := (ending (step s op).1, (step s op).2)
  match call with
  | .admitGroup id members count =>
    let ms := members.take count.toNat
    match unfit (line s).length id ms with
    | some text => (.error (clip maxMsg text), s)
    | none => pass (.admitGroup (.hashable id) (.iterable (ms.map .hashable)))
  | .markReady member => pass (.markReady (.hashable member))
  | .markGroupReady id => pass (.markGroupReady (.hashable id))
  | .groupOf member => pass (.groupOf (.hashable member))
  | .cancel id => pass (.cancel (.hashable id))
  | .clear _ _ capacity =>
    if capacity < (line s).length then
      (.error (clip maxMsg (literal "clear output buffer is too small")), s)
    else pass .clear
  | .peek => pass .peek
  | .release => pass .release
  | .releaseAll _ _ capacity =>
    (.ok (.groups ((releases step capacity.toNat s).1.map printed)),
      (releases step capacity.toNat s).2)
  | .groups => pass .groups
  | .len => pass .len
  | .contains member => pass (.contains (.hashable member))
  | .groupMarkReady slot member =>
    match (line s)[slot]? with
    | some h => pass (.groupMarkReady h (.hashable member))
    | none => (.error [], s)

end

/-- What C asks of the caller: arrays as long as said, and pointers into the slots in use. -/
def Call.Proper (waiting : Nat) : Call → Prop
  | .admitGroup _ members count => count ≤ members.length
  | .clear n _ capacity => capacity ≤ n
  | .releaseAll n _ capacity => capacity ≤ n
  | .groupMarkReady slot _ => slot < waiting
  | _ => True

instance Call.decidableProper (waiting : Nat) : (call : Call) → Decidable (call.Proper waiting)
  | .admitGroup _ members count => inferInstanceAs (Decidable (count ≤ members.length))
  | .clear n _ capacity => inferInstanceAs (Decidable (capacity ≤ n))
  | .releaseAll n _ capacity => inferInstanceAs (Decidable (capacity ≤ n))
  | .groupMarkReady slot _ => inferInstanceAs (Decidable (slot < waiting))
  | .markReady _ | .markGroupReady _ | .groupOf _ | .cancel _ | .peek | .release | .groups | .len
  | .contains _ => isTrue trivial

def handles (q : PlainQueue CString CString) : List Handle := q.waiting.map Entry.handle

/-- A call does not go wrong, answers so, and leaves a queue that stores this line. -/
def Answers (c : Queue) (call : Call) (r : Ending × PlainQueue CString CString) : Prop :=
  ∃ c', perform call c = some (r.1, c') ∧ Keeps c' r.2

theorem no_nul_clip {n : Nat} {text : List UInt8} (h : 0 ∉ text) : 0 ∉ clip n text :=
  fun hm => h (List.mem_of_mem_take hm)

theorem Keeps.reason (h : Keeps c q) {text : List UInt8} (h0 : 0 ∉ text) :
    ∃ c', reason c text = some c' ∧ failed c' = some (.error (clip maxMsg text), c') ∧
      Keeps c' q := by
  obtain ⟨error, hr, hs⟩ := reason_eq c text
  refine ⟨_, hr, ?_, h.with_error error⟩
  simp only [failed, textAt_eq hs (no_nul_clip h0), Option.bind_eq_bind, Option.bind_some]
  rfl

theorem no_nul_said (err : TitoError CString CString) : 0 ∉ said err := by
  have hname : ∀ v : Value CString, 0 ∉ printedName v := by
    intro v
    cases v with
    | hashable a => exact a.no_nul
    | unhashable t => exact List.not_mem_nil
  have hlit : ∀ text ∈ ["group ", " must contain at least one member", " contains duplicate members",
      " is not a member of group ", " is already in the queue", "members already in the queue:", " ",
      " is not in the queue"], 0 ∉ literal text := by decide
  cases err with
  | membersInQueue ms held =>
    simp only [said, List.mem_append, List.mem_flatMap, not_or, not_exists, not_and]
    exact ⟨hlit _ (by simp), fun m _ => ⟨hlit _ (by simp), m.no_nul⟩⟩
  | idInQueue id => simp [said, hlit, id.no_nul]
  | _ => simp [said, hlit, hname]

namespace Keeps

theorem found {α : Type} {l : List α} {p : α → Bool} :
    (l.findIdx? p = none ∧ l.find? p = none) ∨
      ∃ i e, l.findIdx? p = some i ∧ l.find? p = some e ∧ l[i]? = some e := by
  have hbind : l.find? p = (l.findIdx? p).bind (l[·]?) := List.find?_eq_bind_findIdx?_getElem?
  cases hi : l.findIdx? p with
  | none =>
    rw [hi] at hbind
    exact Or.inl ⟨rfl, hbind⟩
  | some i =>
    rw [hi, Option.bind_some] at hbind
    obtain ⟨hlt, -⟩ := List.findIdx?_eq_some_iff_getElem.mp hi
    rw [List.getElem?_eq_getElem hlt] at hbind
    exact Or.inr ⟨i, l[i], rfl, hbind, List.getElem?_eq_getElem hlt⟩

theorem showSlot (h : Keeps c q) {i : Nat} {e : Entry CString CString}
    (he : q.waiting[i]? = some e) : showSlot c (some i) = some (.ok (.group (printed e)), c) := by
  obtain ⟨g, hg, hs⟩ := h.groups i e he
  simp only [Slots.showSlot, hg, hs.shown, Option.bind_eq_bind, Option.bind_some]
  rfl

theorem showOut (c : Queue) {g : Group} {e : Entry CString CString} (hs : Stores g e) :
    Slots.showOut c (some g) = some (.ok (.group (printed e)), c) := by
  simp only [Slots.showOut, hs.shown, Option.bind_eq_bind, Option.bind_some]
  rfl

theorem answers_groupOf (h : Keeps c q) (m : CString) :
    Answers c (.groupOf m) (limited PlainQueue.step handles q (.groupOf m)) := by
  have ho := h.groupOf m
  refine ⟨c, ?_, h⟩
  rcases found (l := q.waiting) (p := fun e => decide (m ∈ e.members)) with
    ⟨hi, hf⟩ | ⟨i, e, hi, hf, he⟩
  · rw [hi] at ho
    have hof : q.groupOf m = none := hf
    simp only [perform, ho, limited, PlainQueue.step, Value.toOption, Option.bind_some, hof]
    rfl
  · rw [hi] at ho
    have hof : q.groupOf m = some e := hf
    simp only [perform, ho, limited, PlainQueue.step, Value.toOption, Option.bind_some, hof]
    exact h.showSlot he

theorem answers_contains (h : Keeps c q) (m : CString) :
    Answers c (.contains m) (limited PlainQueue.step handles q (.contains m)) := by
  refine ⟨c, ?_, h⟩
  simp only [perform, h.contains m, Option.bind_eq_bind, Option.bind_some]
  rfl

theorem answers_len (h : Keeps c q) :
    Answers c .len (limited PlainQueue.step handles q .len) := by
  refine ⟨c, ?_, h⟩
  simp only [perform, h.groupCount]
  rfl

theorem answers_groups (h : Keeps c q) :
    Answers c .groups (limited PlainQueue.step handles q .groups) := by
  refine ⟨c, ?_, h⟩
  simp only [perform, h.count_toNat, shownGroups_eq h.groups, Option.bind_eq_bind, Option.bind_some]
  rfl

theorem answers_peek (h : Keeps c q) :
    Answers c .peek (limited PlainQueue.step handles q .peek) := by
  obtain ⟨o, ho, hbind, hnone⟩ := h.peekIndex
  refine ⟨c, ?_, h⟩
  cases o with
  | none =>
    simp only [perform, ho, limited, PlainQueue.step, hnone.mp rfl]
    rfl
  | some i =>
    cases hp : q.peek with
    | none => cases hnone.mpr hp
    | some e =>
      simp only [perform, ho, limited, PlainQueue.step, hp]
      exact h.showSlot (hbind.trans hp)

theorem answers_release (h : Keeps c q) :
    Answers c .release (limited PlainQueue.step handles q .release) := by
  cases hp : q.peek with
  | none =>
    refine ⟨c, ?_, by simpa [limited, PlainQueue.step, hp] using h⟩
    simp only [perform, h.release_of_none hp, limited, PlainQueue.step, hp]
    rfl
  | some e =>
    obtain ⟨g, c', hr, hs, hk⟩ := h.release_of_some hp
    refine ⟨c', ?_, by simpa [limited, PlainQueue.step, hp] using hk⟩
    simp only [perform, hr, limited, PlainQueue.step, hp]
    exact showOut c' hs

omit c in
theorem releases_eq (n : Nat) (q : PlainQueue CString CString) :
    releases PlainQueue.step n q = q.releaseUpTo n := by
  induction n generalizing q with
  | zero => rfl
  | succ n ih =>
    rw [releases, PlainQueue.releaseUpTo]
    cases hp : q.peek with
    | none => simp only [PlainQueue.step, hp, PlainQueue.shown, Option.elim_none]
    | some e => simp only [PlainQueue.step, hp, PlainQueue.shown, Option.elim_some, ih]

theorem answers_releaseAll (h : Keeps c q) {n : Nat} (out : Vector Group n) {capacity : Int}
    (hcap : capacity ≤ n) : Answers c (.releaseAll n out capacity)
      (limited PlainQueue.step handles q (.releaseAll n out capacity)) := by
  obtain ⟨out', c', hloop, hout, hk⟩ :=
    h.releaseAllLoop capacity.toNat (show Holds Stores out [] from Holds.nil) (by simp; omega)
  rw [List.nil_append] at hloop hout
  refine ⟨c', ?_, by rw [limited, releases_eq]; exact hk⟩
  have hall : releaseAll c out capacity =
      some ((q.releaseUpTo capacity.toNat).1.length, out', c') := hloop
  simp only [perform, hall, Option.bind_eq_bind, Option.bind_some, shownGroups_eq hout, limited,
    releases_eq]
  rfl

theorem answers_cancel (h : Keeps c q) (id : CString) :
    Answers c (.cancel id) (limited PlainQueue.step handles q (.cancel id)) := by
  have ho := h.findGroup id
  rcases found (l := q.waiting) (p := fun e => decide (e.groupId = .hashable id)) with
    ⟨hi, hf⟩ | ⟨i, e, hi, hf, he⟩
  · rw [hi] at ho
    have hfind : q.find (.hashable id) = none := hf
    obtain ⟨c', hr, hfail, hk⟩ := h.reason (no_nul_said (.groupNotQueued (.hashable id)))
    refine ⟨c', ?_, by simpa [limited, PlainQueue.step, PlainQueue.cancel, hfind] using hk⟩
    have hcancel : cancel c id = some (none, c') := by
      rw [cancel, ho, Option.bind_eq_bind, Option.bind_some]
      dsimp only
      rw [show Slots.reason c (literal "group " ++ id.chars ++ literal " is not in the queue") =
        some c' from hr]
      rfl
    simp only [perform, hcancel, limited, PlainQueue.step, PlainQueue.cancel, hfind]
    exact hfail
  · rw [hi] at ho
    have hfind : q.find (.hashable id) = some e := hf
    obtain ⟨g, hg, hs⟩ := h.groups i e he
    obtain ⟨c', hr, hk⟩ := h.removeAt he
    refine ⟨c', ?_, by simpa [limited, PlainQueue.step, PlainQueue.cancel, hfind] using hk⟩
    have hcancel : cancel c id = some (some g, c') := by
      simp only [cancel, ho, hg, hr, Option.bind_eq_bind, Option.bind_some]
      rfl
    simp only [perform, hcancel, limited, PlainQueue.step, PlainQueue.cancel, hfind]
    exact showOut c' hs

theorem marked_at (h : Keeps c q) {i : Nat} {e : Entry CString CString}
    (he : q.waiting[i]? = some e) {m : CString} (hm : m ∈ e.members) :
    ∃ g group code groups, c.groups[i]? = some g ∧
      groupMarkReady g m c.error = some (code, group, c.error) ∧
      code = (if (e.mark m).ready then 1 else 0) ∧ write c.groups i group = some groups ∧
      Keeps { c with groups := groups, error := c.error } (q.mark e.handle m) := by
  obtain ⟨g, hg, hs⟩ := h.groups i e he
  obtain ⟨group, hmark, hs'⟩ := hs.groupMarkReady_of_mem hm c.error
  obtain ⟨groups, hwrite, hk⟩ := h.replace he (by simp) hs' c.error
  have hmarked : e.marked [(e.handle, m)] = e.mark m := by
    rw [← Entry.markAt_eq_marked, Entry.markAt, if_pos rfl]
  rw [hmarked] at hmark
  rw [← PlainQueue.mark_eq_marks] at hk
  exact ⟨g, group, _, groups, hg, hmark, rfl, hwrite, hk⟩

theorem answers_markReady (h : Keeps c q) (m : CString) :
    Answers c (.markReady m) (limited PlainQueue.step handles q (.markReady m)) := by
  have ho := h.groupOf m
  rcases found (l := q.waiting) (p := fun e => decide (m ∈ e.members)) with
    ⟨hi, hf⟩ | ⟨i, e, hi, hf, he⟩
  · rw [hi] at ho
    have hof : q.groupOf m = none := hf
    obtain ⟨c', hr, hfail, hk⟩ := h.reason (no_nul_said (.memberNotQueued (.hashable m)))
    have hmark : markReady c m = some (-1, c') := by
      rw [markReady, ho, Option.bind_eq_bind, Option.bind_some]
      dsimp only
      rw [show Slots.reason c (m.chars ++ literal " is not in the queue") = some c' from hr]
      rfl
    refine ⟨c', ?_, by
      simpa [limited, PlainQueue.step, PlainQueue.markReady, Value.toOption, hof] using hk⟩
    simp only [perform, hmark, Option.bind_eq_bind, Option.bind_some, limited, PlainQueue.step,
      PlainQueue.markReady, Value.toOption, hof]
    exact hfail
  · rw [hi] at ho
    have hof : q.groupOf m = some e := hf
    have hm : m ∈ e.members := by simpa using List.find?_some hf
    have hok := h.valid.groupMarkReady_ok (List.mem_of_getElem? he) hm
    obtain ⟨g, group, code, groups, hg, hmark, hcode, hwrite, hk⟩ := h.marked_at he hm
    refine ⟨_, ?_, by
      simpa [limited, PlainQueue.step, PlainQueue.markReady, Value.toOption, hof, hok] using hk⟩
    simp only [perform, markReady, ho, hg, hmark, hwrite, Option.bind_eq_bind, Option.bind_some,
      limited, PlainQueue.step, PlainQueue.markReady, Value.toOption, hof, hok, ending, hcode]
    cases (e.mark m).ready <;> rfl

theorem answers_groupMarkReady (h : Keeps c q) {slot : Nat} (hslot : slot < q.waiting.length)
    (m : CString) : Answers c (.groupMarkReady slot m)
      (limited PlainQueue.step handles q (.groupMarkReady slot m)) := by
  obtain ⟨e, he⟩ : ∃ e, q.waiting[slot]? = some e := ⟨_, List.getElem?_eq_getElem hslot⟩
  have hhandle : (handles q)[slot]? = some e.handle := by
    rw [handles, List.getElem?_map, he]
    rfl
  have hmem := List.mem_of_getElem? he
  by_cases hm : m ∈ e.members
  · have hok := h.valid.groupMarkReady_ok hmem hm
    obtain ⟨g, group, code, groups, hg, hmark, hcode, hwrite, hk⟩ := h.marked_at he hm
    refine ⟨_, ?_, by simpa [limited, hhandle, PlainQueue.step, hok] using hk⟩
    simp only [perform, hg, hmark, hwrite, Option.bind_eq_bind, Option.bind_some, limited, hhandle,
      PlainQueue.step, hok, ending, hcode]
    cases (e.mark m).ready <;> rfl
  · have hno : q.groupMarkReady e.handle (.hashable m) =
        (.error (.tito (.notAMember (.hashable m) e.groupId e.members)), q) := by
      simp only [PlainQueue.groupMarkReady, h.valid.look_eq hmem, hm, if_false]
    obtain ⟨g, hg, hs⟩ := h.groups slot e he
    obtain ⟨error, hmark, hstored⟩ := hs.groupMarkReady_of_not_mem hm c.error
    have hsame : e.marked [] = e := by simp [Entry.marked]
    have hnone : ∀ p ∈ ([] : List (Handle × CString)), p.1 = e.handle := by simp
    obtain ⟨groups, hwrite, hk⟩ := h.replace he hnone (by rwa [hsame]) error
    rw [PlainQueue.marks_nil] at hk
    refine ⟨_, ?_, by simpa [limited, hhandle, PlainQueue.step, hno] using hk⟩
    simp only [perform, hg, hmark, hwrite, Option.bind_eq_bind, Option.bind_some, limited, hhandle,
      PlainQueue.step, hno, ending, failed, textAt_eq hstored (no_nul_clip (no_nul_said _))]
    rfl

theorem answers_markGroupReady (h : Keeps c q) (id : CString) :
    Answers c (.markGroupReady id) (limited PlainQueue.step handles q (.markGroupReady id)) := by
  have ho := h.findGroup id
  rcases found (l := q.waiting) (p := fun e => decide (e.groupId = .hashable id)) with
    ⟨hi, hf⟩ | ⟨i, e, hi, hf, he⟩
  · rw [hi] at ho
    have hfind : q.find (.hashable id) = none := hf
    obtain ⟨c', hr, hfail, hk⟩ := h.reason (no_nul_said (.groupNotQueued (.hashable id)))
    have hmark : markGroupReady c id = some (-1, c') := by
      rw [markGroupReady, ho, Option.bind_eq_bind, Option.bind_some]
      dsimp only
      rw [show Slots.reason c (literal "group " ++ id.chars ++ literal " is not in the queue") =
        some c' from hr]
      rfl
    refine ⟨c', ?_, by simpa [limited, PlainQueue.step, PlainQueue.markGroupReady, hfind] using hk⟩
    simp only [perform, hmark, Option.bind_eq_bind, Option.bind_some, limited, PlainQueue.step,
      PlainQueue.markGroupReady, hfind]
    exact hfail
  · rw [hi] at ho
    have hfind : q.find (.hashable id) = some e := hf
    obtain ⟨g, hg, hs⟩ := h.groups i e he
    obtain ⟨ready, hrun, hs'⟩ := hs.groupReady
    obtain ⟨groups, hwrite, hk⟩ := h.replace he (by simp) hs' c.error
    rw [← PlainQueue.foldl_mark_eq_marks] at hk
    refine ⟨_, ?_, by simpa [limited, PlainQueue.step, PlainQueue.markGroupReady, hfind] using hk⟩
    simp only [perform, markGroupReady, ho, hg, hrun, hwrite, Option.bind_eq_bind, Option.bind_some,
      limited, PlainQueue.step, PlainQueue.markGroupReady, hfind]
    rfl

theorem clear_loop (h : Keeps c q) {n : Nat} (out : Vector Group n) (hn : q.waiting.length ≤ n) :
    ∃ out', each (fun g out => do write out g (← c.groups[g]?)) 0 q.waiting.length out = some out' ∧
      Holds Stores out' q.waiting := by
  have hround : ∀ (done : List (Entry CString CString)) (e : Entry CString CString)
      (rest : List (Entry CString CString)) (out : Vector Group n), q.waiting = done ++ e :: rest →
      Holds Stores out done → ∃ out',
        (do write out (0 + done.length) (← c.groups[0 + done.length]?)) = some out' ∧
          Holds Stores out' (done ++ [e]) := by
    intro done e rest out hl hout
    obtain ⟨g, hg, hs⟩ := h.groups done.length e (by rw [hl]; simp)
    have hlt : done.length < n := by
      rw [hl, List.length_append, List.length_cons] at hn
      omega
    refine ⟨_, ?_, hout.concat hlt hs⟩
    rw [Nat.zero_add, hg]
    exact write_of_lt hlt
  exact each_keeps (fun done out => Holds Stores out done) hround Holds.nil

theorem answers_clear (h : Keeps c q) {n : Nat} (out : Vector Group n) {capacity : Int}
    (hcap : capacity ≤ n) : Answers c (.clear n out capacity)
      (limited PlainQueue.step handles q (.clear n out capacity)) := by
  have hlen : (handles q).length = q.waiting.length := List.length_map _
  have hcount := h.groupCount
  by_cases hlt : capacity < q.waiting.length
  · have hno : 0 ∉ literal "clear output buffer is too small" := by decide
    obtain ⟨c', hr, hfail, hk⟩ := h.reason hno
    have hclear : clear c out capacity = some (-1, out, c') := by
      simp only [clear, hcount, hlt, if_true, hr, Option.bind_eq_bind, Option.bind_some]
      rfl
    refine ⟨c', ?_, by simpa [limited, hlen, hlt] using hk⟩
    simp only [perform, hclear, Option.bind_eq_bind, Option.bind_some, limited, hlen, hlt, if_true]
    exact hfail
  · obtain ⟨out', hloop, hout⟩ := h.clear_loop out (by omega)
    have hclear : clear c out capacity =
        some (c.groupCount, out', { c with groupCount := 0 }) := by
      rw [← h.count_toNat] at hloop
      rw [← hcount] at hlt
      rw [clear, if_neg hlt, hloop]
      rfl
    have hk : Keeps { c with groupCount := 0 } q.clear := {
      valid := {
        ordered := List.Pairwise.nil
        handle_lt := fun e he => by cases he
        id_unique := fun e he => by cases he
        member_unique := fun e he => by cases he
        departed_handle := fun k e hke => h.valid.look_handle hke }
      policy := h.policy
      groupCount := rfl
      groups := Holds.nil }
    refine ⟨_, ?_, by simpa [limited, hlen, hlt, PlainQueue.step] using hk⟩
    have hneg : ¬ c.groupCount < 0 := by omega
    simp only [perform, hclear, Option.bind_eq_bind, Option.bind_some, hneg, if_false, h.count_toNat,
      shownGroups_eq hout, limited, hlen, hlt, PlainQueue.step]
    rfl

end Keeps

section

variable {members : List CString} {count : Int}

theorem length_given (hcount : count ≤ members.length) :
    (members.take count.toNat).length = count.toNat := by
  rw [List.length_take]
  omega

theorem getElem?_given {i : Nat} {m : CString} (h : (members.take count.toNat)[i]? = some m) :
    members[i]? = some m := by
  rw [List.getElem?_take] at h
  split at h
  · exact h
  · cases h

theorem scan_names (hcount : count ≤ members.length) :
    scan (fun i => do return !nameFits (← members[i]?)) 0 count.toNat =
      some ((members.take count.toNat).findIdx? fun m => !nameFits m) := by
  have hscan : scan (fun i => do return !nameFits (← members[i]?)) 0
      (members.take count.toNat).length =
      some ((members.take count.toNat).findIdx? fun m => !nameFits m) := by
    refine scan_zero fun i m hm => ?_
    rw [getElem?_given hm]
    rfl
  rwa [length_given hcount] at hscan

theorem scan_twice (hcount : count ≤ members.length) {i : Nat} (hi : i < count.toNat) :
    ∃ o, scan (fun j => do return decide ((← members[j]?) = (← members[i]?))) 0 i = some o ∧
      o.isSome = decide (∃ j, j < i ∧
        (members.take count.toNat)[j]? = (members.take count.toNat)[i]?) := by
  obtain ⟨m, hm⟩ : ∃ m, (members.take count.toNat)[i]? = some m :=
    ⟨_, List.getElem?_eq_getElem (by rw [length_given hcount]; exact hi)⟩
  have hscan : scan (fun j => do return decide ((← members[j]?) = (← members[i]?))) 0
      (members.take i).length = some ((members.take i).findIdx? fun k => decide (k = m)) := by
    refine scan_zero fun j k hk => ?_
    have hj : members[j]? = some k := by
      rw [List.getElem?_take] at hk
      split at hk
      · exact hk
      · cases hk
    rw [hj, getElem?_given hm]
    rfl
  have hlen : (members.take i).length = i := by
    rw [List.length_take]
    omega
  rw [hlen] at hscan
  refine ⟨_, hscan, ?_⟩
  rw [List.findIdx?_isSome, Bool.eq_iff_iff, List.any_eq_true, decide_eq_true_iff, hm]
  constructor
  · rintro ⟨k, hk, hkm⟩
    obtain ⟨j, hj⟩ := List.mem_iff_getElem?.mp hk
    rw [of_decide_eq_true hkm, List.getElem?_take] at hj
    split at hj
    · rename_i hji
      exact ⟨j, hji, by rw [List.getElem?_take_of_lt (by omega), hj]⟩
    · cases hj
  · rintro ⟨j, hji, hj⟩
    refine ⟨m, List.mem_iff_getElem?.mpr ⟨j, ?_⟩, decide_eq_true rfl⟩
    rw [List.getElem?_take_of_lt hji]
    exact getElem?_given hj

/-- The two loops find a member that is given twice, if there is one. -/
theorem scan_duplicates (hcount : count ≤ members.length) :
    ∃ o, scan (fun i => do return (← scan (fun j => do
        return decide ((← members[j]?) = (← members[i]?))) 0 i).isSome) 0 count.toNat = some o ∧
      (o.isSome = true ↔ ¬ (members.take count.toNat).Nodup) := by
  have hscan : scan (fun i => do return (← scan (fun j => do
      return decide ((← members[j]?) = (← members[i]?))) 0 i).isSome) 0
      (List.range count.toNat).length = some ((List.range count.toNat).findIdx? fun i =>
        decide (∃ j, j < i ∧ (members.take count.toNat)[j]? = (members.take count.toNat)[i]?)) := by
    refine scan_zero fun i k hk => ?_
    obtain ⟨hi, hk⟩ := List.getElem?_eq_some_iff.mp hk
    rw [List.getElem_range] at hk
    rw [List.length_range] at hi
    subst hk
    obtain ⟨o, ho, hsome⟩ := scan_twice hcount hi
    rw [ho, ← hsome]
    rfl
  rw [List.length_range] at hscan
  refine ⟨_, hscan, ?_⟩
  rw [List.findIdx?_isSome, List.any_eq_true, List.nodup_iff_getElem?_ne_getElem?,
    length_given hcount]
  simp only [List.mem_range, decide_eq_true_eq]
  push Not
  constructor
  · rintro ⟨i, hi, j, hj, heq⟩
    exact ⟨j, i, hj, hi, heq⟩
  · rintro ⟨j, i, hj, hi, heq⟩
    exact ⟨i, hi, j, hj, heq⟩

variable {id : CString}

theorem admit_failed (h : Keeps c q) {text : List UInt8} (h0 : 0 ∉ text)
    (hadm : ∀ c', reason c text = some c' → admitGroup c id members count = some (none, c'))
    (hlim : limited PlainQueue.step handles q (.admitGroup id members count) =
      (.error (clip maxMsg text), q)) :
    Answers c (.admitGroup id members count)
      (limited PlainQueue.step handles q (.admitGroup id members count)) := by
  obtain ⟨c', hr, hfail, hk⟩ := h.reason h0
  rw [hlim]
  refine ⟨c', ?_, hk⟩
  simp only [perform, hadm c' hr, Option.bind_eq_bind, Option.bind_some]
  exact hfail

theorem limited_unfit {text : List UInt8}
    (hunfit : unfit q.waiting.length id (members.take count.toNat) = some text) :
    limited PlainQueue.step handles q (.admitGroup id members count) =
      (.error (clip maxMsg text), q) := by
  simp only [limited, handles, List.length_map, hunfit]

theorem limited_refused {err : TitoError CString CString}
    (hunfit : unfit q.waiting.length id (members.take count.toNat) = none)
    (hr : q.refusal (.hashable id) (.iterable ((members.take count.toNat).map .hashable)) =
      some (.tito err)) :
    limited PlainQueue.step handles q (.admitGroup id members count) =
      (.error (clip maxMsg (said err)), q) := by
  simp only [limited, handles, List.length_map, hunfit, PlainQueue.step, PlainQueue.admitGroup, hr,
    ending]

theorem limited_accepted (hunfit : unfit q.waiting.length id (members.take count.toNat) = none)
    (hacc : q.Accepts id (members.take count.toNat)) :
    limited PlainQueue.step handles q (.admitGroup id members count) =
      (.ok (.group (printed (q.arrival id (members.take count.toNat)))),
        q.join (q.arrival id (members.take count.toNat))) := by
  have hok := PlainQueue.admit_of_accepts hacc
  cases hr : q.refusal (.hashable id) (.iterable ((members.take count.toNat).map .hashable)) with
  | some e =>
    simp only [PlainQueue.admitGroup, hr] at hok
    cases hok
  | none =>
    simp only [limited, handles, List.length_map, hunfit, PlainQueue.step]
    simp only [PlainQueue.admitGroup, hr, PlainQueue.filterMap_toOption_map_hashable]
    rfl

theorem valid_join (hq : q.Valid) {ms : List CString} (hacc : q.Accepts id ms) :
    (q.join (q.arrival id ms)).Valid where
  ordered := by
    refine List.pairwise_append.mpr ⟨hq.ordered, List.pairwise_singleton _ _, fun e he e' he' => ?_⟩
    rw [List.mem_singleton.mp he']
    exact hq.handle_lt e he
  handle_lt := by
    intro e he
    rcases List.mem_append.mp he with he | he
    · exact Nat.lt_succ_of_lt (hq.handle_lt e he)
    · rw [List.mem_singleton.mp he]
      exact Nat.lt_succ_self _
  id_unique := by
    intro e he e' he' hid
    rcases List.mem_append.mp he with he | he <;> rcases List.mem_append.mp he' with he' | he'
    · exact hq.id_unique e he e' he' hid
    · rw [List.mem_singleton.mp he'] at hid
      exact absurd hid (hacc.id_free e he)
    · rw [List.mem_singleton.mp he] at hid
      exact absurd hid.symm (hacc.id_free e' he')
    · rw [List.mem_singleton.mp he, List.mem_singleton.mp he']
  member_unique := by
    have hfree : ∀ e ∈ q.waiting, ∀ m ∈ e.members, m ∉ (q.arrival id ms).members := by
      intro e he m hm hm'
      rw [PlainQueue.arrival_members] at hm'
      have hof := hacc.members_free m hm'
      rw [hq.groupOf_eq he hm] at hof
      cases hof
    intro e he e' he' m hm hm'
    rcases List.mem_append.mp he with he | he <;> rcases List.mem_append.mp he' with he' | he'
    · exact hq.member_unique e he e' he' m hm hm'
    · rw [List.mem_singleton.mp he'] at hm'
      exact absurd hm' (hfree e he m hm)
    · rw [List.mem_singleton.mp he] at hm
      exact absurd hm (hfree e' he' m hm')
    · rw [List.mem_singleton.mp he, List.mem_singleton.mp he']
  departed_handle := hq.departed_handle

theorem Keeps.join (h : Keeps c q) {ms : List CString} (hacc : q.Accepts id ms) {g : Group}
    (hs : Stores g (q.arrival id ms)) (hroom : q.waiting.length < maxGroups) :
    ∃ groups, write c.groups q.waiting.length g = some groups ∧
      Keeps { c with groups := groups, groupCount := c.groupCount + 1 }
        (q.join (q.arrival id ms)) := by
  refine ⟨_, write_of_lt hroom, valid_join h.valid hacc, h.policy, ?_, h.groups.concat hroom hs⟩
  rw [PlainQueue.join, List.length_append, List.length_singleton, Int.natCast_add, ← h.groupCount]
  rfl

/-- The part behind the checks of the arguments answers as the package does. -/
theorem answers_enter (h : Keeps c q) (id : CString) (hcount : count ≤ members.length)
    (hne : members.take count.toNat ≠ []) (hid : nameFits id = true)
    (hfits : ∀ m ∈ members.take count.toNat, nameFits m = true)
    (hnd : (members.take count.toNat).Nodup) (hroom : count ≤ maxMembers)
    (hslot : q.waiting.length < maxGroups)
    (hunfit : unfit q.waiting.length id (members.take count.toNat) = none)
    (henter : admitGroup c id members count = enter c id members count) :
    Answers c (.admitGroup id members count)
      (limited PlainQueue.step handles q (.admitGroup id members count)) := by
  have hpos : 0 ≤ count := by
    by_contra hneg
    exact hne (List.length_eq_zero_iff.mp (by rw [length_given hcount]; omega))
  have hrefusal := q.refusal_map_hashable (.hashable id) hne
  rw [if_neg (not_not.mpr hnd)] at hrefusal
  dsimp only at hrefusal
  have hgroup := h.findGroup id
  rcases Keeps.found (l := q.waiting) (p := fun e => decide (e.groupId = .hashable id)) with
    ⟨hj, hg⟩ | ⟨j, e, hj, hg, he⟩
  swap
  · -- the id is in the queue
    rw [hj] at hgroup
    have hlisted : ∃ e ∈ q.waiting, e.groupId = .hashable id :=
      ⟨e, List.mem_of_find?_eq_some hg, by simpa using List.find?_some hg⟩
    rw [if_pos hlisted] at hrefusal
    refine admit_failed h (no_nul_said _) (fun c' hc' => ?_) (limited_refused hunfit hrefusal)
    rw [henter, enter, hgroup]
    simp only [Option.bind_eq_bind, Option.bind_some, Option.isSome_some, if_true]
    rw [show reason c (literal "group " ++ id.chars ++ literal " is already in the queue") =
      some c' from hc']
    rfl
  rw [hj] at hgroup
  have hfree : ∀ e ∈ q.waiting, e.groupId ≠ .hashable id := fun e he hk =>
    List.find?_eq_none.mp hg e he (decide_eq_true hk)
  have hunlisted : ¬ ∃ e ∈ q.waiting, e.groupId = .hashable id := fun ⟨e, he, hk⟩ => hfree e he hk
  rw [if_neg hunlisted] at hrefusal
  obtain ⟨⟨error, len, queued⟩, hloop, hnoted⟩ :=
    noteQueued_eq h (show count.toNat ≤ members.length by omega)
  cases hnoted with
  | named hqueued hs =>
    rw [queuedOf] at hqueued
    rw [if_pos hqueued] at hrefusal
    rw [limited_refused hunfit hrefusal]
    refine ⟨_, ?_, h.with_error error⟩
    have hcode : enter c id members count = some (none, { c with error := error }) := by
      simp only [enter, hgroup, hloop, Option.bind_eq_bind, Option.bind_some, Option.isSome_none,
        Bool.false_eq_true, if_false, if_true]
      rfl
    simp only [perform, henter, hcode, Option.bind_eq_bind, Option.bind_some, failed,
      textAt_eq hs (no_nul_clip (no_nul_said _))]
    rfl
  | nothing hnone =>
    have hacc : q.Accepts id (members.take count.toNat) := {
      ne_nil := hne
      nodup := hnd
      id_free := hfree
      members_free := by simpa [queuedOf] using hnone }
    obtain ⟨g, hplace, hs⟩ :=
      place_eq (q := q) c.groups[q.waiting.length] hcount hroom hid hfits hnd hpos
    obtain ⟨groups, hwrite, hk⟩ := h.join hacc hs hslot
    rw [limited_accepted hunfit hacc]
    refine ⟨_, ?_, hk⟩
    have hshow := hk.showSlot (i := q.waiting.length) (e := q.arrival id (members.take count.toNat))
      (by simp [PlainQueue.join])
    simp only [perform, henter, enter, hgroup, hloop, h.count_toNat, hplace, hwrite,
      Vector.getElem?_eq_getElem hslot, Option.isSome_none, Bool.false_eq_true, if_false,
      Option.bind_eq_bind, Option.bind_some]
    exact hshow

theorem answers_admitGroup (h : Keeps c q) (id : CString) (hcount : count ≤ members.length) :
    Answers c (.admitGroup id members count)
      (limited PlainQueue.step handles q (.admitGroup id members count)) := by
  have hlen := length_given hcount
  have hlits : ∀ text ∈ ["group ", " is too long", "member ", " does not fit in the queue"],
      0 ∉ literal text := by decide
  by_cases hpos : count ≤ 0
  · have hnil : members.take count.toNat = [] := List.length_eq_zero_iff.mp (by omega)
    have hr : q.refusal (.hashable id) (.iterable ((members.take count.toNat).map .hashable)) =
        some (.tito (.noMembers (.hashable id))) := by
      rw [hnil]
      rfl
    refine admit_failed h (no_nul_said _) (fun c' hc' => ?_)
      (limited_refused (by rw [unfit, if_pos hnil]) hr)
    rw [admitGroup, if_pos hpos]
    rw [show reason c (literal "group " ++ id.chars ++
      literal " must contain at least one member") = some c' from hc']
    rfl
  have hne : members.take count.toNat ≠ [] := by
    intro hnil
    rw [hnil, List.length_nil] at hlen
    omega
  by_cases hid : nameFits id = true
  swap
  · have hid' : (!nameFits id) = true := by simp [hid]
    refine admit_failed h ?_ (fun c' hc' => ?_)
      (limited_unfit (by rw [unfit, if_neg hne, if_pos hid']))
    · simp [hlits, id.no_nul]
    · rw [admitGroup, if_neg hpos, if_pos hid', hc']
      rfl
  have hid' : ¬ (!nameFits id) = true := by simp [hid]
  have hnames := scan_names hcount
  rcases Keeps.found (l := members.take count.toNat) (p := fun m => !nameFits m) with
    ⟨hi, hf⟩ | ⟨i, m, hi, hf, hm⟩
  swap
  · rw [hi] at hnames
    refine admit_failed h ?_ (fun c' hc' => ?_)
      (limited_unfit (by rw [unfit, if_neg hne, if_neg hid', hf]))
    · simp [hlits, m.no_nul]
    · rw [admitGroup, if_neg hpos, if_neg hid', hnames]
      simp only [Option.bind_eq_bind, Option.bind_some, getElem?_given hm, hc']
      rfl
  rw [hi] at hnames
  have hfits : ∀ m ∈ members.take count.toNat, nameFits m = true :=
    fun m hm => by simpa using List.find?_eq_none.mp hf m hm
  have hlast : unfit q.waiting.length id (members.take count.toNat) =
      if (members.take count.toNat).Nodup ∧
          (maxMembers < (members.take count.toNat).length ∨ maxGroups ≤ q.waiting.length) then
        some (literal "group " ++ id.chars ++ literal " does not fit in the queue")
      else none := by
    rw [unfit, if_neg hne, if_neg hid', hf]
  obtain ⟨o, ho, hdup⟩ := scan_duplicates hcount
  simp only [Option.bind_eq_bind] at ho
  by_cases hnd : (members.take count.toNat).Nodup
  swap
  · have hrefusal := q.refusal_map_hashable (.hashable id) hne
    rw [if_pos hnd] at hrefusal
    refine admit_failed h (no_nul_said _) (fun c' hc' => ?_)
      (limited_refused (hlast.trans (if_neg fun h => hnd h.1)) hrefusal)
    rw [admitGroup, if_neg hpos, if_neg hid', hnames]
    simp only [Option.bind_eq_bind, Option.bind_some, ho, hdup.mpr hnd, if_true]
    rw [show reason c (literal "group " ++ id.chars ++ literal " contains duplicate members") =
      some c' from hc']
    rfl
  have hsome : ¬ o.isSome = true := fun ho => hdup.mp ho hnd
  have hle := h.groups.length_le
  have hgroupCount := h.groupCount
  have hfull : (count > maxMembers ∨ c.groupCount = maxGroups) ↔
      (maxMembers < (members.take count.toNat).length ∨ maxGroups ≤ q.waiting.length) := by
    rw [hlen]
    omega
  by_cases hroom : count > maxMembers ∨ c.groupCount = maxGroups
  · refine admit_failed h ?_ (fun c' hc' => ?_)
      (limited_unfit (hlast.trans (if_pos ⟨hnd, hfull.mp hroom⟩)))
    · simp [hlits, id.no_nul]
    · rw [admitGroup, if_neg hpos, if_neg hid', hnames]
      simp only [Option.bind_eq_bind, Option.bind_some, ho, hsome, hroom, if_true, hc']
      rfl
  refine answers_enter h id hcount hne hid hfits hnd (by omega) (by omega)
    (hlast.trans (if_neg fun h => hroom (hfull.mpr h.2))) ?_
  rw [admitGroup, if_neg hpos, if_neg hid', hnames]
  simp only [Option.bind_eq_bind, Option.bind_some, ho, hsome, hroom, Bool.false_eq_true, if_false]

end

/-- Every call on a queue that stores a line goes right and answers as the line behind the limits. -/
theorem perform_answers (h : Keeps c q) {call : Call} (hproper : call.Proper q.waiting.length) :
    Answers c call (limited PlainQueue.step handles q call) := by
  cases call with
  | admitGroup id members count => exact answers_admitGroup h id hproper
  | markReady member => exact h.answers_markReady member
  | markGroupReady id => exact h.answers_markGroupReady id
  | groupOf member => exact h.answers_groupOf member
  | cancel id => exact h.answers_cancel id
  | clear n out capacity => exact h.answers_clear out hproper
  | peek => exact h.answers_peek
  | release => exact h.answers_release
  | releaseAll n out capacity => exact h.answers_releaseAll out hproper
  | groups => exact h.answers_groups
  | len => exact h.answers_len
  | contains member => exact h.answers_contains member
  | groupMarkReady slot member => exact h.answers_groupMarkReady hproper member

section

variable {σ τ : Type} {step : Machine σ (Op CString CString) (Outcome CString CString)}
  {step' : Machine τ (Op CString CString) (Outcome CString CString)} {R : σ → τ → Prop}

theorem releases_related (h : Simulation step step' R) (n : Nat) {s : σ} {t : τ} (hs : R s t) :
    (releases step n s).1 = (releases step' n t).1 ∧
      R (releases step n s).2 (releases step' n t).2 := by
  induction n generalizing s t with
  | zero => exact ⟨rfl, hs⟩
  | succ n ih =>
    have hanswer := h.answer hs .release
    have hnext := h.next hs .release
    rw [releases, releases]
    obtain ⟨a, s', hrun⟩ : ∃ a s', step s .release = (a, s') := ⟨_, _, rfl⟩
    obtain ⟨a', t', hrun'⟩ : ∃ a' t', step' t .release = (a', t') := ⟨_, _, rfl⟩
    rw [hrun, hrun'] at hanswer hnext
    rw [hrun, hrun']
    dsimp only at hanswer hnext
    subst hanswer
    obtain ⟨ha, hr⟩ := ih hnext
    split
    · rename_i e s'' he
      obtain ⟨rfl, rfl⟩ := Prod.mk.inj he
      exact ⟨congrArg (e :: ·) ha, hr⟩
    · rename_i a s'' hno he
      obtain ⟨rfl, rfl⟩ := Prod.mk.inj he
      split
      · rename_i e t'' he'
        exact absurd (Prod.mk.inj he').1 (hno e)
      · rename_i t'' hno' he'
        obtain ⟨-, rfl⟩ := Prod.mk.inj he'
        exact ⟨rfl, hnext⟩

theorem limited_simulation (h : Simulation step step' R) {line : σ → List Handle}
    {line' : τ → List Handle} (hline : ∀ {s t}, R s t → line s = line' t) :
    Simulation (limited step line) (limited step' line') R := by
  have hpass : ∀ {s t}, R s t → ∀ op, ending (step s op).1 = ending (step' t op).1 ∧
      R (step s op).2 (step' t op).2 := fun hs op => ⟨congrArg ending (h.answer hs op), h.next hs op⟩
  have hboth : ∀ {s t}, R s t → ∀ call, (limited step line s call).1 = (limited step' line' t call).1 ∧
      R (limited step line s call).2 (limited step' line' t call).2 := by
    intro s t hs call
    cases call with
    | admitGroup id members count =>
      simp only [limited, hline hs]
      split
      · exact ⟨rfl, hs⟩
      · exact hpass hs _
    | clear n out capacity =>
      simp only [limited, hline hs]
      split
      · exact ⟨rfl, hs⟩
      · exact hpass hs _
    | releaseAll n out capacity =>
      obtain ⟨ha, hr⟩ := releases_related h capacity.toNat hs
      exact ⟨by simp only [limited, ha], hr⟩
    | groupMarkReady slot member =>
      simp only [limited, hline hs]
      split
      · exact hpass hs _
      · exact ⟨rfl, hs⟩
    | _ => exact hpass hs _
  exact ⟨fun hs call => (hboth hs call).1, fun hs call => (hboth hs call).2⟩

end

/-- The groups that wait in the package's queue, in their order. -/
def line (w : World CString CString) : List Handle := w.groups.values

def Mirrors (c : Queue) (w : World CString CString) : Prop := Consistent w ∧ Keeps c w.plain

theorem init_mirrors (memory : Queue) (strictOrder : Int) :
    ∃ c, init memory strictOrder = some c ∧
      Mirrors c (World.init (decide (strictOrder ≠ 0))) := by
  have hconsistent : Consistent (World.init (decide (strictOrder ≠ 0)) : World CString CString) :=
    init_consistent _
  have hwrite : write memory.error 0 0 = some (memory.error.set 0 0 (by decide)) :=
    write_of_lt (by decide)
  refine ⟨_, by simp only [init, hwrite, Option.bind_eq_bind, Option.bind_some]; rfl, hconsistent, ?_⟩
  exact {
    valid := hconsistent.plain_valid
    policy := rfl
    groupCount := rfl
    groups := Holds.nil }

theorem Mirrors.step {w : World CString CString} (h : Mirrors c w) {call : Call}
    (hproper : call.Proper (line w).length) :
    (step c call).1 = some (limited Tito.step line w call).1 ∧
      Mirrors (step c call).2 (limited Tito.step line w call).2 := by
  have hline : ∀ {w : World CString CString} {q : PlainQueue CString CString}, Refines w q →
      line w = handles q := by
    rintro w q ⟨hw, rfl⟩
    exact hw.toRegistered.map_handle_waiting.symm
  have hsim := limited_simulation step_refines hline
  have hrefines : Refines w w.plain := ⟨h.1, rfl⟩
  have hlen : (line w).length = w.plain.waiting.length := by
    rw [hline hrefines, handles, List.length_map]
  rw [hlen] at hproper
  obtain ⟨c', hrun, hk⟩ := perform_answers h.2 hproper
  obtain ⟨hw', hplain⟩ := hsim.next hrefines call
  rw [Slots.step, hrun, hsim.answer hrefines call]
  exact ⟨rfl, hw', by rw [hplain]; exact hk⟩

/-- The queue in fixed arrays answers every run of calls that C allows as the package's queue does
behind its limits, and nothing that it does in its arrays and buffers is undefined, whatever was in
its memory before. The names and arrays that the calls are given are apart from the queue and from
each other. -/
theorem slots_agree (memory : Queue) (strictOrder : Int) (calls : List Call)
    (hproper : Along (limited Tito.step line) (fun w call => call.Proper (line w).length)
      (World.init (decide (strictOrder ≠ 0))) calls) :
    ∃ c, init memory strictOrder = some c ∧ answers step c calls =
      (answers (limited Tito.step line) (World.init (decide (strictOrder ≠ 0))) calls).map some := by
  obtain ⟨c, hinit, hmirrors⟩ := init_mirrors memory strictOrder
  exact ⟨c, hinit, answers_of_along some (fun _ _ _ h hp => h.step hp) hmirrors hproper⟩

/-- Two groups, a third that is refused, a message that is cut, a mark through a pointer, and a
release into an array that has room for one group. -/
theorem slots_agree_refusals :
    let kim : CString := ⟨[107, 105, 109], by decide⟩
    let lee : CString := ⟨[108, 101, 101], by decide⟩
    let long : CString := ⟨List.replicate 130 120, by decide⟩
    let group : Group := ⟨Vector.replicate 32 9, Vector.replicate 8 (Vector.replicate 32 7),
      Vector.replicate 8 5, -1, 3⟩
    let memory : Queue := ⟨Vector.replicate 16 group, 99, 0, Vector.replicate 128 65⟩
    let calls : List Call := [.admitGroup ⟨[112], by decide⟩ [kim] 1,
      .admitGroup ⟨[113], by decide⟩ [lee] 1, .admitGroup ⟨[114], by decide⟩ [kim, lee] 2,
      .markReady long, .groupMarkReady 0 kim, .releaseAll 1 (Vector.replicate 1 group) 1]
    ∃ c, init memory 1 = some c ∧ answers step c calls =
      [some (.ok (.group ([112], [([107, 105, 109], false)]))),
        some (.ok (.group ([113], [([108, 101, 101], false)]))),
        some (.error (literal "members already in the queue: kim lee")),
        some (.error (List.replicate 127 120)), some (.ok (.bool true)),
        some (.ok (.groups [([112], [([107, 105, 109], true)])]))] := by
  intro kim lee long group memory calls
  obtain ⟨c, hinit, hanswers⟩ := slots_agree memory 1 calls (by decide)
  exact ⟨c, hinit, hanswers.trans (by decide)⟩

end Tito.Slots
