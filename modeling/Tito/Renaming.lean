import Tito.CleanExit
import Tito.Together

namespace Tito

open Lib Lib.Effects Lib.Mealy Lib.Search

variable {I M : Type}

/-- What a caller can do to a queue who also assigns to the `group_id` of the groups it holds, the
one attribute of a `Group` that can be assigned to. -/
inductive Call (I M : Type) where
  | op (op : Op I M)
  | setGroupId (group : Handle) (id : I)
  deriving DecidableEq

/-- `group.group_id = id`. -/
def World.setGroupId (w : World I M) (group : Handle) (id : I) : World I M :=
  { w with objects := w.objects.modify group fun g => { g with groupId := .hashable id } }

def World.readyAt (w : World I M) (h : Handle) : Bool := w.objects[h]?.any Group.isReady

/-- The waiting groups that a `release_all` would take out. -/
def World.complete (w : World I M) : List Handle :=
  if w.strictOrder then w.groups.values.takeWhile w.readyAt else w.groups.values.filter w.readyAt

variable [DecidableEq I]

/-- The waiting groups that a departure is about to take out. -/
def World.leaving (w : World I M) : Op I M → List Handle
  | .cancel id => (id.toOption.bind w.groups.get?).toList
  | .release => w.complete.take 1
  | .releaseAll => w.complete
  | _ => []

/-- A departing group bears the id it was admitted under. -/
def Faithful (w : World I M) : Call I M → Prop
  | .op op => ∀ e ∈ w.groups.entries, e.2 ∈ w.leaving op →
      w.objects[e.2]?.map Group.groupId = some (.hashable e.1)
  | .setGroupId _ _ => True

instance (w : World I M) : (call : Call I M) → Decidable (Faithful w call)
  | .op _ => inferInstanceAs (Decidable (∀ _ ∈ _, _))
  | .setGroupId _ _ => isTrue trivial

variable [DecidableEq M]

def callStep : Machine (World I M) (Call I M) (Outcome I M) := fun w call =>
  match call with
  | .op op => step w op
  | .setGroupId group id => (.ok .none, w.setGroupId group id)

/-- Departures are clean, whatever else is called. -/
def Proper (w : World I M) : Call I M → Prop
  | .op op => op.departs = true → CleanExit w op
  | .setGroupId _ _ => True

/-- But for the ids that were assigned, `w` is a queue that has all its indexes. -/
def Renamed (w : World I M) : Prop :=
  ∃ u names, Consistent u ∧ Alike (fun _ => none) names u w

omit [DecidableEq I] [DecidableEq M] in
theorem Group.named_self {g : Group I M} {id : I} (h : g.groupId = .hashable id) :
    g.named (some id) = g := by
  rw [Group.named, ← h]

omit [DecidableEq M] in
theorem Alike.normal {names : Handle → Option I} {u w : World I M}
    (huw : Alike (fun _ => none) names u w) : ∃ names', Alike (fun _ => none) names' u w ∧
      ∀ (h : Handle) id g, names' h = some id → u.objects[h]? = some g →
        g.groupId ≠ .hashable id := by
  obtain ⟨os, rfl, hs⟩ := huw
  let names' (h : Handle) : Option I :=
    (names h).filter fun id => decide (u.objects[h]?.map Group.groupId ≠ some (.hashable id))
  refine ⟨names', ⟨os, rfl, hs.length, fun h hh => ?_, fun h p hp => (nomatch hp), hs.mapped,
    hs.indexed, fun h hh => ⟨rfl, ?_⟩⟩, fun h id g hid hg hgid => ?_⟩
  · rw [hs.object h hh]
    refine Option.map_congr fun g hg => ?_
    cases hn : names h with
    | none => simp [names', hn]
    | some id =>
      have hname : names' h = if g.groupId = .hashable id then none else some id := by
        simp [names', hn, hg, Option.filter_some]
      rw [hname]
      split
      · rename_i hgid
        rw [Group.named_self hgid]
        rfl
      · rfl
  · simp [names', (hs.fresh h hh).2]
  · simp [names', hg, hgid, Option.filter_eq_some_iff] at hid

omit [DecidableEq I] [DecidableEq M] in
theorem Alike.setGroupId {names : Handle → Option I} {u w : World I M}
    (huw : Alike (fun _ => none) names u w) (h : Handle) (id : I) :
    ∃ names', Alike (fun _ => none) names' u (w.setGroupId h id) := by
  obtain ⟨os, rfl, hs⟩ := huw
  by_cases hlt : h < u.objects.length
  · refine ⟨Function.update names h (some id), _, rfl, ?_, fun k hk => ?_,
      fun k p hp => (nomatch hp), hs.mapped, hs.indexed, fun k hk => ⟨rfl, ?_⟩⟩
    · rw [List.length_modify, hs.length]
    · rw [List.getElem?_modify, hs.object k hk]
      by_cases hkh : h = k
      · subst hkh
        rw [Function.update_self]
        cases u.objects[h]? with
        | none => rfl
        | some g => cases hn : names h <;> simp [Group.named]
      · rw [Function.update_of_ne (Ne.symm hkh)]
        simp [hkh]
    · rw [Function.update_of_ne (Nat.ne_of_gt (Nat.lt_of_lt_of_le hlt hk))]
      exact (hs.fresh k hk).2
  · refine ⟨names, os, ?_, hs⟩
    rw [World.setGroupId, List.modify_eq_self (hs.length ▸ Nat.le_of_not_lt hlt)]

omit [DecidableEq I] [DecidableEq M] in
theorem Alike.complete {names : Handle → Option I} {u w : World I M}
    (huw : Alike (fun _ => none) names u w) : w.complete = u.complete := by
  obtain ⟨os, rfl, hs⟩ := huw
  have hready : World.readyAt { u with objects := os } = u.readyAt := by
    funext h
    rw [World.readyAt, World.readyAt, hs.object h rfl]
    cases u.objects[h]? with
    | none => rfl
    | some g => exact g.isReady_named (names h)
  rw [World.complete, World.complete, hready]

omit [DecidableEq M] in
theorem Alike.leaving {names : Handle → Option I} {u w : World I M}
    (huw : Alike (fun _ => none) names u w) (op : Op I M) : w.leaving op = u.leaving op := by
  have hc := huw.complete
  obtain ⟨os, rfl, hs⟩ := huw
  cases op with
  | cancel id => rfl
  | release => rw [World.leaving, World.leaving, hc]
  | releaseAll => exact hc
  | _ => rfl

theorem complete_eq {u : World I M} (hu : Consistent u) :
    u.complete = (departing u.plain.strictOrder u.plain.waiting).map Entry.handle := by
  have hready : ∀ e ∈ u.plain.waiting, u.readyAt e.handle = e.ready := by
    intro e he
    obtain ⟨g, hg, hge⟩ := World.look_eq_some.mp (World.mem_waiting.mp he).2
    rw [World.readyAt, hg, Option.any_some, ← hge, g.ready_entry]
  have hpolicy : u.plain.strictOrder = u.strictOrder := rfl
  rw [World.complete, departing, ← hu.map_handle_waiting, hpolicy]
  split
  · exact takeWhile_map_of_forall hready
  · rw [List.filter_map]
    exact congrArg _ (List.filter_congr hready)

theorem harmless_of_leaving {names : Handle → Option I} {u : World I M} (hu : Consistent u)
    {op : Op I M} (hop : ∀ h ∈ u.leaving op, names h = none) :
    Harmless (fun _ => none) names u op := by
  cases op with
  | cancel id =>
    rintro i h rfl hih
    refine hop h ?_
    rw [World.leaving, Value.toOption, Option.bind_some, hih]
    exact List.mem_singleton_self h
  | release =>
    intro h u' hp
    obtain ⟨o, v, hp', hv, hvp, hvl, hpeek, hin, -⟩ := peek_run hu
    obtain ⟨rfl, rfl⟩ := EStateM.Result.ok.inj (hp'.symm.trans hp)
    obtain ⟨e, he⟩ := hv.look_waiting (hin h rfl)
    rw [hvl] at he
    rw [Option.bind_some, he] at hpeek
    refine hop h ?_
    obtain ⟨hdeparting, -⟩ := hu.plain_valid.departing_of_peek_some hpeek
    rw [World.leaving, complete_eq hu, hdeparting, List.map_cons, World.look_handle he]
    exact List.mem_singleton_self h
  | releaseAll =>
    obtain ⟨hs, u', hr, -, -, hout, -, -, hans⟩ := releaseAllLoop_run _ hu (Nat.le_refl _) []
    have hlen := length_shown hans
    refine ⟨_, u', hr, fun h hh => hop h ?_⟩
    obtain ⟨e, he⟩ := Option.isSome_iff_exists.mp (List.filterMap_length_eq_length.mp hlen h hh)
    have hmem : e ∈ departing u.plain.strictOrder u.plain.waiting := by
      rw [← (hu.plain_valid.releaseUpTo_eq (Nat.le_refl _)).1, ← hout]
      exact List.mem_filterMap.mpr ⟨h, hh, he⟩
    rw [World.leaving, complete_eq hu, ← World.look_handle he]
    exact List.mem_map_of_mem hmem
  | groupMarkReady => rfl
  | _ => trivial

omit [DecidableEq I] [DecidableEq M] in
theorem Told.handles {names : Handle → Option I} {o o' : Outcome I M} (h : Told names o o')
    (op : Op I M) : (handedOut op o').map Entry.handle = (handedOut op o).map Entry.handle := by
  cases o with
  | error e =>
    cases o' with
    | ok a' => exact h.elim
    | error e' => cases op <;> rfl
  | ok a =>
    cases o' with
    | error e' => exact h.elim
    | ok a' =>
      rw [show a' = a.named names from h]
      have hmap : ∀ es : List (Entry I M),
          (es.map (Entry.named names)).map Entry.handle = es.map Entry.handle :=
        fun es => List.map_map
      cases a with
      | groups es => cases op <;> first | exact hmap es | rfl
      | _ => cases op <;> rfl

theorem CleanExit.of_alike {names : Handle → Option I} {u w : World I M} {op : Op I M}
    (hu : CleanExit u op) (huw : Alike (fun _ => none) names u w)
    (htold : Told names (step u op).1 (step w op).1)
    (hnext : Alike (fun _ => none) names (step u op).2 (step w op).2) : CleanExit w op := by
  have hreturned : returned w op = returned u op := htold.handles op
  have hraises : ∀ e, (step w op).1 = .error e → ∃ t, e = .tito t := by
    intro e he
    rw [he] at htold
    cases hue : (step u op).1 with
    | ok a =>
      rw [hue] at htold
      exact htold.elim
    | error e' =>
      rw [hue] at htold
      rcases htold with rfl | ⟨-, -, ht⟩
      · exact hu.raises e hue
      · exact ht
  obtain ⟨os', hstep, hs'⟩ := hnext
  obtain ⟨os, rfl, hs⟩ := huw
  refine ⟨hraises, ?_, ?_, ?_, ?_, ?_, ?_, ?_⟩
  · rw [hreturned]
    exact hu.waited
  · rw [hreturned]
    exact hu.once
  · rw [hreturned, hstep]
    exact hu.groups
  · intro m id
    rw [hreturned, hstep]
    refine (hu.members m id).trans (and_congr_right fun _ => ?_)
    dsimp only
    constructor
    · intro h k g hk hg
      rw [hs.object k rfl] at hg
      obtain ⟨g', hg', rfl⟩ := Option.map_eq_some_iff.mp hg
      rw [Group.members_named]
      exact h k g' hk hg'
    · intro h k g hk hg
      have hos := hs.object k rfl
      rw [hg, Option.map_some] at hos
      have hm := h k _ hk hos
      rwa [Group.members_named] at hm
  · rw [hreturned, hstep]
    exact hu.ready
  · rw [hstep]
    exact hu.heap
  · intro k hk
    rw [hreturned] at hk
    rw [hstep]
    dsimp only
    rw [hs'.object k rfl, hs.object k rfl, hu.others k hk]

omit [DecidableEq M] in
theorem mem_values_of_mem_leaving {u : World I M} {op : Op I M} {h : Handle}
    (hh : h ∈ u.leaving op) : h ∈ u.groups.values := by
  have hcomplete : ∀ k ∈ u.complete, k ∈ u.groups.values := by
    intro k hk
    rw [World.complete] at hk
    split at hk
    · exact (List.takeWhile_prefix _).subset hk
    · exact List.mem_of_mem_filter hk
  cases op with
  | cancel id =>
    obtain ⟨i, -, hi⟩ := Option.bind_eq_some_iff.mp (Option.mem_toList.mp hh)
    exact Dict.mem_values_of_get? hi
  | release => exact hcomplete h (List.mem_of_mem_take hh)
  | releaseAll => exact hcomplete h hh
  | _ => cases hh

/-- Where the departing groups bear the ids they were admitted under, no assigned id counts. -/
theorem names_of_faithful {names : Handle → Option I} {u w : World I M} (hu : Registered u)
    (huw : Alike (fun _ => none) names u w) (hnormal : ∀ (h : Handle) id g, names h = some id →
      u.objects[h]? = some g → g.groupId ≠ .hashable id) {op : Op I M} (hop : Faithful w (.op op)) :
    ∀ h ∈ u.leaving op, names h = none := by
  intro h hh
  obtain ⟨id, hid⟩ := Dict.mem_values_iff.mp (mem_values_of_mem_leaving hh)
  obtain ⟨g, hg, hgid⟩ := hu.bearing id h hid
  rw [← huw.leaving] at hh
  obtain ⟨os, rfl, hs⟩ := huw
  have hbears := hop (id, h) (Dict.get?_eq_some_iff.mp hid) hh
  dsimp only at hbears
  rw [hs.object h rfl, hg] at hbears
  cases hn : names h with
  | none => rfl
  | some i =>
    rw [hn] at hbears
    obtain rfl : i = id := Value.hashable.inj (Option.some.inj hbears)
    exact absurd hgid (hnormal h i g hn hg)

theorem Renamed.step {w : World I M} (hw : Renamed w) {call : Call I M} (hcall : Faithful w call) :
    Renamed (callStep w call).2 ∧ Proper w call := by
  obtain ⟨u, names, hu, huw⟩ := hw
  cases call with
  | setGroupId group id =>
    obtain ⟨names', huw'⟩ := huw.setGroupId group id
    exact ⟨⟨u, names', hu, huw'⟩, trivial⟩
  | op op =>
    obtain ⟨names', huw', hnormal⟩ := huw.normal
    have hnames := names_of_faithful hu.toRegistered huw' hnormal hcall
    obtain ⟨htold, hnext⟩ := step_alike huw' (harmless_of_leaving hu hnames)
    refine ⟨⟨_, names', step_consistent hu op, hnext⟩, fun hop => ?_⟩
    exact (cleanExit_of_consistent hu hop).of_alike huw' htold hnext

/-- A removal deletes the entry under the id that the group bears, or raises `KeyError` if there is
none. -/
theorem remove_bearing {w : World I M} {h : Handle} {g : Group I M} {i : I}
    (hg : w.objects[h]? = some g) (hgid : g.groupId = .hashable i) :
    (i ∉ w.groups.keys ∧ (remove h).run w = .error .keyError w) ∨
      (i ∈ w.groups.keys ∧ (after (remove h) w).groups = w.groups.erase i) := by
  by_cases hi : i ∈ w.groups.keys
  · refine Or.inr ⟨hi, ?_⟩
    have hrun : (remove h).run w = EStateM.run (do
        g.members.forM delMember
        setOnReady h none
        if ← popReady g.sequence then compactReadyHeap)
        ({ w with groups := w.groups.erase i }.wrote (.delGroup i)) := by
      simp [remove, deref_run hg, delGroup, hgid, hi]
    rw [after, hrun]
    exact keeps_removal h g _
  · refine Or.inl ⟨hi, ?_⟩
    simp [remove, deref_run hg, delGroup, hgid, hi]

/-- A call that takes out the group at `h`, and has found it. -/
def Removes (w : World I M) (op : Op I M) (h : Handle) : Prop :=
  ∃ w₁, (perform op).run w = EStateM.run (do remove h; showGroup (some h)) w₁ ∧
    w₁.groups = w.groups ∧ w₁.objects = w.objects

omit [DecidableEq I] [DecidableEq M] in
theorem handedOut_shown {op : Op I M} {w : World I M} {h : Handle} :
    ∀ k ∈ (handedOut op (.ok ((w.look h).elim .none .group))).map Entry.handle, k = h := by
  intro k hk
  cases hl : w.look h with
  | none =>
    rw [hl] at hk
    cases op <;> cases hk
  | some e =>
    rw [hl] at hk
    have he := World.look_handle hl
    cases op <;> simp_all [handedOut]

theorem not_cleanExit_of_erase {w : World I M} {op : Op I M} {h : Handle} {id i : I}
    (hid : w.groups.get? id = some h) (hi : i ∈ w.groups.keys) (hne : i ≠ id)
    (hgroups : (step w op).2.groups = w.groups.erase i) (hout : ∀ k ∈ returned w op, k = h) :
    ¬ CleanExit w op := by
  intro ho
  have hentries := ho.groups
  rw [hgroups] at hentries
  -- The departing group keeps its entry, so the call cannot have returned it.
  have hstays : (id, h) ∈ (w.groups.erase i).entries := by
    rw [← Dict.get?_eq_some_iff, Dict.get?_erase, if_neg (Ne.symm hne)]
    exact hid
  rw [hentries, List.mem_filter, decide_eq_true_iff] at hstays
  obtain ⟨k, hk⟩ := Dict.mem_keys_iff.mp hi
  -- The entry under the assigned id is gone, so its group must have been returned.
  have hgone : (i, k) ∉ (w.groups.erase i).entries := by
    rw [← Dict.get?_eq_some_iff, Dict.get?_erase, if_pos rfl]
    exact fun hn => nomatch hn
  rw [hentries, List.mem_filter, decide_eq_true_iff] at hgone
  refine hgone ⟨Dict.get?_eq_some_iff.mp hk, fun hkr => hstays.2 ?_⟩
  exact hout k hkr ▸ hkr

theorem not_cleanExit_of_bearing {w : World I M} {op : Op I M} {h : Handle} {g : Group I M}
    {id i : I} (hop : Removes w op h) (hid : w.groups.get? id = some h)
    (hg : w.objects[h]? = some g) (hgid : g.groupId = .hashable i) (hne : i ≠ id) :
    ¬ CleanExit w op := by
  intro ho
  obtain ⟨w₁, hrun, hgroups, hobjects⟩ := hop
  rw [← hobjects] at hg
  rcases remove_bearing hg hgid with ⟨-, hr⟩ | ⟨hi, hr⟩
  · have hstep : step w op = (.error .keyError, w₁) := by
      refine step_of_error ?_
      rw [hrun, EStateM.run_bind, hr]
    obtain ⟨t, ht⟩ := ho.raises .keyError (by rw [hstep])
    cases ht
  · have hstep : (step w op).2.groups = w.groups.erase i ∧ ∀ k ∈ returned w op, k = h := by
      rw [after] at hr
      rw [EStateM.run_bind] at hrun
      cases hv : (remove h).run w₁ with
      | ok _ v =>
        rw [hv] at hr hrun
        have hs := step_of_ok hrun
        rw [returned, hs]
        exact ⟨by rw [← hgroups]; exact hr, handedOut_shown⟩
      | error e v =>
        rw [hv] at hr hrun
        have hs := step_of_error hrun
        rw [returned, hs]
        refine ⟨by rw [← hgroups]; exact hr, fun k hk => ?_⟩
        cases op <;> cases hk
    exact not_cleanExit_of_erase hid (hgroups ▸ hi) hne hstep.1 hstep.2 ho

theorem removes_cancel {w : World I M} {i : I} {h : Handle} (hi : w.groups.get? i = some h) :
    Removes w (.cancel (.hashable i)) h :=
  ⟨w, by simp [perform, cancel, find, hi], rfl, rfl⟩

theorem removes_release {names : Handle → Option I} {u w : World I M} (hu : Consistent u)
    (huw : Alike (fun _ => none) names u w) {h : Handle} (hh : h ∈ u.leaving .release) :
    Removes w .release h := by
  obtain ⟨o, u', hp, -, -, -, hpeek, -⟩ := peek_run hu
  rw [World.leaving, complete_eq hu] at hh
  have ho : o = some h := by
    cases hq : u.plain.peek with
    | none =>
      rw [(PlainQueue.departing_of_peek_none hq).1] at hh
      cases hh
    | some e =>
      rw [(hu.plain_valid.departing_of_peek_some hq).1, List.map_cons] at hh
      rw [hq] at hpeek
      obtain ⟨k, hk, hl⟩ := Option.bind_eq_some_iff.mp hpeek.symm
      rw [hk, List.mem_singleton.mp hh, World.look_handle hl]
  have hm := Together.peek u w huw
  rw [hp, ho] at hm
  obtain ⟨o', w₁, hw, ⟨rfl, -⟩, -⟩ := hm.ok
  have hkept := (keeps_peek (frame_eq fun w : World I M => (w.groups, w.objects))
    fun _ _ _ _ _ => rfl).ok hw
  refine ⟨w₁, ?_, congrArg Prod.fst hkept, congrArg Prod.snd hkept⟩
  simp [perform, release, hw]

theorem Renamed.faithful_of_cleanExit {w : World I M} (hw : Renamed w) {op : Op I M}
    (hop : op = .release ∨ ∃ id, op = .cancel id) (ho : CleanExit w op) : Faithful w (.op op) := by
  obtain ⟨u, names, hu, huw⟩ := hw
  rintro ⟨id, h⟩ he hleaving
  have hid : w.groups.get? id = some h := Dict.get?_eq_some_iff.mpr he
  have hremoves : Removes w op h := by
    rcases hop with rfl | ⟨id', rfl⟩
    · rw [huw.leaving] at hleaving
      exact removes_release hu huw hleaving
    · obtain ⟨i, hi, hih⟩ := Option.bind_eq_some_iff.mp (Option.mem_toList.mp hleaving)
      cases id' with
      | unhashable t => cases hi
      | hashable j =>
        obtain rfl := Option.some.inj hi
        exact removes_cancel hih
  obtain ⟨os, rfl, hs⟩ := huw
  obtain ⟨g, hg, hgid⟩ := hu.bearing id h hid
  have hobject : os[h]? = some (g.named (names h)) := by rw [hs.object h rfl, hg, Option.map_some]
  dsimp only
  rw [hobject, Option.map_some]
  cases hn : names h with
  | none => exact congrArg some hgid
  | some i =>
    rw [hn] at hobject
    by_contra hne
    have hid' : i ≠ id := fun hi => hne (hi ▸ rfl)
    exact not_cleanExit_of_bearing hremoves hid hobject rfl hid' ho

theorem init_renamed (strictOrder : Bool) : Renamed (World.init strictOrder : World I M) := by
  refine ⟨_, fun _ => none, init_consistent strictOrder, [], rfl, rfl, fun _ _ => rfl,
    fun _ _ hp => (nomatch hp), fun _ hh => (nomatch hh), fun _ hh => (nomatch hh),
    fun _ _ => ⟨rfl, rfl⟩⟩

theorem Renamed.run {w : World I M} (hw : Renamed w) {calls : List (Call I M)}
    (hcalls : Along callStep Faithful w calls) :
    Renamed (final callStep w calls) ∧ Along callStep Proper w calls := by
  induction calls generalizing w with
  | nil => exact ⟨hw, trivial⟩
  | cons call calls ih =>
    obtain ⟨hnext, hproper⟩ := hw.step hcalls.1
    obtain ⟨hfinal, hrest⟩ := ih hnext hcalls.2
    exact ⟨hfinal, hproper, hrest⟩

/-- In every run in which callers also assign ids to the groups they hold, every departure removes
from every index exactly the groups it returns, raises nothing but `TitoError`, and loses or
duplicates no other group, as long as the departing groups bear the ids they were admitted under.
After such a run a `release` or a `cancel` needs no less. -/
theorem departures_proper {strictOrder : Bool} {calls : List (Call I M)}
    (hcalls : Along callStep Faithful (World.init strictOrder) calls) :
    let w := final callStep (World.init strictOrder) calls
    Along callStep Proper (World.init strictOrder) calls ∧
    ∀ op, op = .release ∨ (∃ id, op = .cancel id) → (Proper w (.op op) ↔ Faithful w (.op op)) := by
  intro w
  obtain ⟨hfinal, hproper⟩ := (init_renamed strictOrder).run hcalls
  refine ⟨hproper, fun op hop => ⟨fun hp => ?_, fun hf => (hfinal.step hf).2⟩⟩
  have hdeparts : op.departs = true := by
    rcases hop with rfl | ⟨id, rfl⟩ <;> rfl
  exact hfinal.faithful_of_cleanExit hop (hp hdeparts)

/-- A group is given another id, and its own again before it is released. -/
theorem departures_proper_restored :
    Along callStep Proper (World.init true : World Nat Nat)
      [.op (.admitGroup (.hashable 7) (.iterable [.hashable 1])),
        .op (.admitGroup (.hashable 8) (.iterable [.hashable 2])), .setGroupId 0 8,
        .op (.markGroupReady (.hashable 7)), .op (.markReady (.hashable 2)), .setGroupId 0 7,
        .op .releaseAll] :=
  (departures_proper (by decide)).1

/-- The group that waits under 7 is given the id 8 of another: its cancellation drops the other one
from the map instead. -/
theorem renamed_cancel_drops_other :
    let calls : List (Call Nat Nat) :=
      [.op (.admitGroup (.hashable 7) (.iterable [.hashable 1])),
        .op (.admitGroup (.hashable 8) (.iterable [.hashable 2])), .setGroupId 0 8,
        .op (.cancel (.hashable 7))]
    let w := final callStep (World.init true) calls
    ¬ Along callStep Proper (World.init true) calls ∧
      answers callStep (World.init true) calls =
        [.ok (.group ⟨0, .hashable 7, [(1, false)]⟩), .ok (.group ⟨1, .hashable 8, [(2, false)]⟩),
          .ok .none, .ok (.group ⟨0, .hashable 8, [(1, false)]⟩)] ∧
      w.groups.values = [0] ∧
      (callStep w (.op (.groupOf (.hashable 2)))).1 = .error .keyError := by
  refine ⟨fun hproper => ?_, by decide, by decide, by decide⟩
  have hgroups := (hproper.2.2.2.1 rfl).groups
  revert hgroups
  decide

end Tito
