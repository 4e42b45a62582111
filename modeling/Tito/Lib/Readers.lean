import Mathlib.Order.Defs.Unbundled
import Mathlib.Data.List.Forall2

namespace Tito.Lib.Readers

variable {σ ω κ α : Type}

/-- What can be seen while a body runs: one of its writes, or a read that takes no lock. -/
inductive Event (ω κ : Type) where
  | write (w : ω)
  | read (q : κ)

def Event.write? : Event ω κ → Option ω
  | .write w => some w
  | .read _ => none

def Event.read? : Event ω κ → Option κ
  | .write _ => none
  | .read q => some q

def writes (es : List (Event ω κ)) : List ω := es.filterMap Event.write?

def reads (es : List (Event ω κ)) : List κ := es.filterMap Event.read?

/-- The body as a whole, with every read before or after it. -/
def whole (before : List κ) (ws : List ω) (after : List κ) : List (Event ω κ) :=
  before.map .read ++ (ws.map .write ++ after.map .read)

/-- What one reader sees of a body: the reads of the others are not its own. -/
def only (p : κ → Bool) (es : List (Event ω κ)) : List (Event ω κ) :=
  es.filter fun e => e.read?.all p

theorem reads_append (es es' : List (Event ω κ)) : reads (es ++ es') = reads es ++ reads es' :=
  List.filterMap_append

theorem writes_whole (before : List κ) (ws : List ω) (after : List κ) :
    writes (whole before ws after) = ws := by
  simp [writes, whole, Event.write?, Function.comp_def]

theorem reads_whole (before : List κ) (ws : List ω) (after : List κ) :
    reads (whole before ws after) = before ++ after := by
  simp [reads, whole, Event.read?, Function.comp_def]

theorem writes_only (p : κ → Bool) (es : List (Event ω κ)) : writes (only p es) = writes es := by
  induction es with
  | nil => rfl
  | cons e es ih =>
    cases e with
    | write w => exact congrArg (w :: ·) ih
    | read q =>
      cases hq : p q with
      | true => rwa [only, List.filter_cons_of_pos (by simpa [Event.read?] using hq)]
      | false => rwa [only, List.filter_cons_of_neg (by simpa [Event.read?] using hq)]

/-- A store that bodies change write by write, and what a read of it looks at. -/
structure Store (σ ω κ α : Type) where
  apply : σ → ω → σ
  read : σ → κ → α
  touches : σ → ω → κ → Prop
  untouched : ∀ s w q, ¬ touches s w q → read (apply s w) q = read s q

namespace Store

variable (S : Store σ ω κ α)

def run (s : σ) (ws : List ω) : σ := ws.foldl S.apply s

/-- The answers to the reads, each given by the store as the writes before it left it. -/
def answers : σ → List (Event ω κ) → List α
  | _, [] => []
  | s, .write w :: es => answers (S.apply s w) es
  | s, .read q :: es => S.read s q :: answers s es

/-- Some of the writes touches what the read looks at. -/
def Touched : σ → List ω → κ → Prop
  | _, [], _ => False
  | s, w :: ws, q => S.touches s w q ∨ Touched (S.apply s w) ws q

def Settled : σ → List (Event ω κ) → Prop
  | _, [] => True
  | s, .write w :: es => Settled (S.apply s w) es
  | s, .read q :: es => ¬ S.Touched s (writes es) q ∧ Settled s es

/-- From the first read on that looks at what the body has written, in `done`, no read looks at
what the body is still to write. -/
def Orderly (s : σ) : List ω → List (Event ω κ) → Prop
  | _, [] => True
  | done, .write w :: es => Orderly s (done ++ [w]) es
  | done, .read q :: es =>
    (S.Touched s done q → S.Settled (S.run s done) (.read q :: es)) ∧ Orderly s done es

section

variable [∀ s w q, Decidable (S.touches s w q)]

instance Touched.decidable : (s : σ) → (ws : List ω) → (q : κ) → Decidable (S.Touched s ws q)
  | _, [], _ => isFalse id
  | s, w :: ws, q =>
    haveI := Touched.decidable (S.apply s w) ws q
    inferInstanceAs (Decidable (S.touches s w q ∨ S.Touched (S.apply s w) ws q))

instance Settled.decidable : (s : σ) → (es : List (Event ω κ)) → Decidable (S.Settled s es)
  | _, [] => isTrue trivial
  | s, .write w :: es => Settled.decidable (S.apply s w) es
  | s, .read q :: es =>
    haveI := Settled.decidable s es
    inferInstanceAs (Decidable (¬ S.Touched s (writes es) q ∧ S.Settled s es))

instance Orderly.decidable (s : σ) :
    (done : List ω) → (es : List (Event ω κ)) → Decidable (S.Orderly s done es)
  | _, [] => isTrue trivial
  | done, .write w :: es => Orderly.decidable s (done ++ [w]) es
  | done, .read q :: es =>
    haveI := Orderly.decidable s done es
    inferInstanceAs (Decidable
      ((S.Touched s done q → S.Settled (S.run s done) (.read q :: es)) ∧ S.Orderly s done es))

end

/-- The reads in a body are answered as they would be before or after the whole of it. -/
def Atomic (s : σ) (es : List (Event ω κ)) : Prop :=
  ∃ before after, reads es = before ++ after ∧
    S.answers s (whole before (writes es) after) = S.answers s es

def EachBody (P : σ → List (Event ω κ) → Prop) : σ → List (List (Event ω κ)) → Prop
  | _, [] => True
  | s, es :: bodies => P s es ∧ EachBody P (S.run s (writes es)) bodies

instance EachBody.decidable (P : σ → List (Event ω κ) → Prop) [∀ s es, Decidable (P s es)] :
    (s : σ) → (bodies : List (List (Event ω κ))) → Decidable (S.EachBody P s bodies)
  | _, [] => isTrue trivial
  | s, es :: bodies =>
    haveI := EachBody.decidable P (S.run s (writes es)) bodies
    inferInstanceAs (Decidable (P s es ∧ S.EachBody P (S.run s (writes es)) bodies))

/-- The reads of a run, in the order they were made, are answered as in some run of the same
bodies in which no read falls into a body. -/
def Explained (s : σ) (bodies : List (List (Event ω κ))) : Prop :=
  ∃ bodies', List.Forall₂ (fun es es' => ∃ before after, es' = whole before (writes es) after)
      bodies bodies' ∧
    reads bodies'.flatten = reads bodies.flatten ∧
    S.answers s bodies'.flatten = S.answers s bodies.flatten

variable {S}

theorem run_append (s : σ) (ws ws' : List ω) : S.run s (ws ++ ws') = S.run (S.run s ws) ws' :=
  List.foldl_append

theorem answers_append (s : σ) (es es' : List (Event ω κ)) :
    S.answers s (es ++ es') = S.answers s es ++ S.answers (S.run s (writes es)) es' := by
  induction es generalizing s with
  | nil => rfl
  | cons e es ih =>
    cases e with
    | write w => exact ih (S.apply s w)
    | read q => exact congrArg (S.read s q :: ·) (ih s)

theorem answers_map_read (s : σ) (qs : List κ) :
    S.answers s (qs.map .read) = qs.map (S.read s) := by
  induction qs with
  | nil => rfl
  | cons q qs ih => exact congrArg (S.read s q :: ·) ih

theorem answers_map_write (s : σ) (ws : List ω) (es : List (Event ω κ)) :
    S.answers s (ws.map .write ++ es) = S.answers (S.run s ws) es := by
  induction ws generalizing s with
  | nil => rfl
  | cons w ws ih => exact ih (S.apply s w)

theorem answers_whole (s : σ) (before : List κ) (ws : List ω) (after : List κ) :
    S.answers s (whole before ws after) =
      before.map (S.read s) ++ after.map (S.read (S.run s ws)) := by
  have hw : writes (before.map .read : List (Event ω κ)) = [] := by
    simp [writes, Event.write?, Function.comp_def]
  rw [whole, answers_append, answers_map_read, hw, answers_map_write, answers_map_read]
  rfl

theorem atomic_iff (s : σ) (es : List (Event ω κ)) :
    S.Atomic s es ↔ ∃ before after, reads es = before ++ after ∧
      S.answers s es = before.map (S.read s) ++ after.map (S.read (S.run s (writes es))) := by
  simp only [Atomic, answers_whole, eq_comm]

theorem read_run_of_not_touched {s : σ} {ws : List ω} {q : κ} (h : ¬ S.Touched s ws q) :
    S.read (S.run s ws) q = S.read s q := by
  induction ws generalizing s with
  | nil => rfl
  | cons w ws ih =>
    rw [Touched, not_or] at h
    exact (ih h.2).trans (S.untouched s w q h.1)

theorem Settled.answers {s : σ} {es : List (Event ω κ)} (h : S.Settled s es) :
    S.answers s es = (reads es).map (S.read (S.run s (writes es))) := by
  induction es generalizing s with
  | nil => rfl
  | cons e es ih =>
    cases e with
    | write w => exact ih h
    | read q =>
      have hq : S.read s q = S.read (S.run s (writes es)) q := (read_run_of_not_touched h.1).symm
      exact List.cons_eq_cons.mpr ⟨hq, ih h.2⟩

theorem Orderly.answers {s : σ} {done : List ω} {es : List (Event ω κ)} (h : S.Orderly s done es) :
    ∃ before after, reads es = before ++ after ∧ S.answers (S.run s done) es =
      before.map (S.read s) ++ after.map (S.read (S.run s (done ++ writes es))) := by
  induction es generalizing done with
  | nil => exact ⟨[], [], rfl, rfl⟩
  | cons e es ih =>
    cases e with
    | write w =>
      obtain ⟨before, after, hr, ha⟩ := ih h
      rw [run_append, List.append_assoc] at ha
      exact ⟨before, after, hr, ha⟩
    | read q =>
      by_cases ht : S.Touched s done q
      · have hs := (h.1 ht).answers
        rw [← run_append] at hs
        exact ⟨[], reads (.read q :: es), rfl, hs⟩
      · obtain ⟨before, after, hr, ha⟩ := ih h.2
        refine ⟨q :: before, after, congrArg (q :: ·) hr, ?_⟩
        exact List.cons_eq_cons.mpr ⟨read_run_of_not_touched ht, ha⟩

theorem Orderly.atomic {s : σ} {es : List (Event ω κ)} (h : S.Orderly s [] es) : S.Atomic s es :=
  (atomic_iff s es).mpr h.answers

/-- Every write moves what it touches the way that `r` goes. -/
def OneWay (S : Store σ ω κ α) (r : α → α → Prop) : σ → List ω → Prop
  | _, [] => True
  | s, w :: ws =>
    (∀ q, S.touches s w q → r (S.read s q) (S.read (S.apply s w) q)) ∧ OneWay S r (S.apply s w) ws

section

variable {r : α → α → Prop}

theorem oneWay_append {s : σ} {ws ws' : List ω} :
    S.OneWay r s (ws ++ ws') ↔ S.OneWay r s ws ∧ S.OneWay r (S.run s ws) ws' := by
  induction ws generalizing s with
  | nil => exact (and_iff_right trivial).symm
  | cons w ws ih => simp only [List.cons_append, OneWay, ih, and_assoc]; rfl

variable [IsStrictOrder α r]

theorem OneWay.rel {s : σ} {ws : List ω} (h : S.OneWay r s ws) {q : κ} (ht : S.Touched s ws q) :
    r (S.read s q) (S.read (S.run s ws) q) := by
  induction ws generalizing s with
  | nil => cases ht
  | cons w ws ih =>
    by_cases hws : S.Touched (S.apply s w) ws q
    · have hrest := ih h.2 hws
      by_cases hw : S.touches s w q
      · exact trans_of r (h.1 q hw) hrest
      · rwa [S.untouched s w q hw] at hrest
    · have hw := h.1 q (ht.resolve_right hws)
      rwa [← read_run_of_not_touched hws] at hw

theorem OneWay.ne {s : σ} {ws : List ω} (h : S.OneWay r s ws) {q : κ} (ht : S.Touched s ws q) :
    S.read s q ≠ S.read (S.run s ws) q := ne_of_irrefl (h.rel ht)

theorem OneWay.settled {s : σ} {es : List (Event ω κ)} (h : S.OneWay r s (writes es))
    (ha : S.answers s es = (reads es).map (S.read (S.run s (writes es)))) : S.Settled s es := by
  induction es generalizing s with
  | nil => trivial
  | cons e es ih =>
    cases e with
    | write w => exact ih h.2 ha
    | read q =>
      obtain ⟨hq, hrest⟩ := List.cons_eq_cons.mp ha
      exact ⟨fun ht => h.ne ht hq, ih h hrest⟩

theorem OneWay.orderly_of_answers {s : σ} {done : List ω} {es : List (Event ω κ)}
    (h : S.OneWay r s (done ++ writes es)) {before after : List κ} (hr : reads es = before ++ after)
    (ha : S.answers (S.run s done) es =
      before.map (S.read s) ++ after.map (S.read (S.run s (done ++ writes es)))) :
    S.Orderly s done es := by
  induction es generalizing done before after with
  | nil => trivial
  | cons e es ih =>
    cases e with
    | write w =>
      have hw : done ++ writes (.write w :: es) = done ++ [w] ++ writes es := by
        rw [List.append_assoc]
        rfl
      rw [hw] at h ha
      refine ih h hr (Eq.trans ?_ ha)
      rw [run_append]
      rfl
    | read q =>
      obtain ⟨hdone, hrest⟩ := oneWay_append.mp h
      cases before with
      | nil =>
        rw [List.nil_append] at hr
        subst hr
        have hnil : reads es = [] ++ reads es := rfl
        refine ⟨fun _ => hrest.settled ?_, ih h hnil (List.cons_eq_cons.mp ha).2⟩
        rw [← run_append]
        exact ha
      | cons q' before =>
        obtain ⟨rfl, hrs⟩ := List.cons_eq_cons.mp hr
        obtain ⟨hq, has⟩ := List.cons_eq_cons.mp ha
        exact ⟨fun ht => absurd hq.symm (hdone.ne ht), ih h hrs has⟩

/-- In a body that goes one way, only orderly reads can pass for reads between bodies. -/
theorem OneWay.orderly {s : σ} {es : List (Event ω κ)} (h : S.OneWay r s (writes es))
    (ha : S.Atomic s es) : S.Orderly s [] es := by
  obtain ⟨before, after, hr, ha⟩ := (atomic_iff s es).mp ha
  have hw : S.OneWay r s ([] ++ writes es) := h
  exact hw.orderly_of_answers hr ha

theorem OneWay.atomic_iff_orderly {s : σ} {es : List (Event ω κ)} (h : S.OneWay r s (writes es)) :
    S.Atomic s es ↔ S.Orderly s [] es := ⟨h.orderly, Orderly.atomic⟩

end

theorem explained_of_atomic {s : σ} {bodies : List (List (Event ω κ))}
    (h : S.EachBody S.Atomic s bodies) : S.Explained s bodies := by
  induction bodies generalizing s with
  | nil => exact ⟨[], .nil, rfl, rfl⟩
  | cons es bodies ih =>
    obtain ⟨⟨before, after, hr, ha⟩, hrest⟩ := h
    obtain ⟨bodies', hb, hr', ha'⟩ := ih hrest
    refine ⟨whole before (writes es) after :: bodies', .cons ⟨before, after, rfl⟩ hb, ?_, ?_⟩
    · simp only [List.flatten_cons, reads_append, reads_whole, hr, hr']
    · simp only [List.flatten_cons, answers_append, writes_whole, ha, ha']

theorem explained_singleton {s : σ} {es : List (Event ω κ)} :
    S.Explained s [es] ↔ S.Atomic s es := by
  constructor
  · rintro ⟨bodies', hb, hr, ha⟩
    obtain ⟨es', _, ⟨before, after, rfl⟩, hnil, rfl⟩ := List.forall₂_cons_left_iff.mp hb
    obtain rfl := List.forall₂_nil_left_iff.mp hnil
    rw [List.flatten_singleton, List.flatten_singleton] at hr ha
    rw [reads_whole] at hr
    exact ⟨before, after, hr.symm, ha⟩
  · exact fun h => explained_of_atomic ⟨h, trivial⟩

end Store

end Tito.Lib.Readers
