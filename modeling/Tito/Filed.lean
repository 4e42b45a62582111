import Tito.Stored

namespace Tito.Slots

open Lib Lib.Memory

variable {c : Queue} {q : PlainQueue CString CString}

theorem reason_eq (c : Queue) (text : List UInt8) :
    ∃ error, reason c text = some { c with error := error } ∧ Stored error 0 (clip maxMsg text) := by
  obtain ⟨error, hprint, hs⟩ := snprintf_eq c.error text
  exact ⟨error, by simp only [reason, hprint, Option.bind_eq_bind, Option.bind_some]; rfl, hs⟩

theorem copyName_eq (dst : Name) {src : CString} (h : nameFits src = true) :
    ∃ buf, copyName dst src = some buf ∧ Stored buf 0 src.chars := by
  obtain ⟨buf, hput, hs⟩ := put_zero (by decide) dst src.chars
  have hlt : src.chars.length < maxName := of_decide_eq_true h
  have hclip : clip maxName src.chars = src.chars := List.take_of_length_le (by omega)
  rw [hclip] at hs
  exact ⟨buf, by rw [copyName, hput]; rfl, hs⟩

/-- What the rounds of the copying loop have written. -/
structure Placed (id : Name) (count : Int) (done : List CString) (g : Group) : Prop where
  id : g.id = id
  memberCount : g.memberCount = count
  readyCount : g.readyCount = 0
  members : Holds (fun name m => Stored name 0 m.chars) g.members done
  ready : Holds (fun r (_ : CString) => r = 0) g.ready done

theorem Placed.step {id : Name} {count : Int} {members done : List CString} {g : Group}
    {m : CString} (h : Placed id count done g) (hm : members[done.length]? = some m)
    (hfits : nameFits m = true) (hn : done.length < maxMembers) :
    ∃ g', placeMember members done.length g = some g' ∧ Placed id count (done ++ [m]) g' := by
  obtain ⟨name, hname, hs⟩ := copyName_eq g.members[done.length] hfits
  refine ⟨{ g with members := g.members.set done.length name hn, ready := g.ready.set done.length 0 hn },
    ?_, h.id, h.memberCount, h.readyCount, h.members.concat hn hs, h.ready.concat hn rfl⟩
  simp only [placeMember, Vector.getElem?_eq_getElem hn, hm, hname, write_of_lt hn,
    Option.bind_eq_bind, Option.bind_some]
  rfl

/-- The slot of an admitted group stores the arrival, whatever it held before. -/
theorem place_eq (g : Group) {id : CString} {members : List CString} {count : Int}
    (hcount : count ≤ members.length) (hroom : count ≤ maxMembers) (hid : nameFits id = true)
    (hfits : ∀ m ∈ members.take count.toNat, nameFits m = true)
    (hnd : (members.take count.toNat).Nodup) (hpos : 0 ≤ count) :
    ∃ g', place g id members count = some g' ∧ Stores g' (q.arrival id (members.take count.toNat)) := by
  have hlen : (members.take count.toNat).length = count.toNat := by
    rw [List.length_take]
    omega
  obtain ⟨name, hname, hs⟩ := copyName_eq g.id hid
  have hround : ∀ (done : List CString) (m : CString) (rest : List CString) (g : Group),
      members.take count.toNat = done ++ m :: rest → Placed name count done g →
      ∃ g', placeMember members (0 + done.length) g = some g' ∧ Placed name count (done ++ [m]) g' := by
    intro done m rest g hl hg
    have hlt : done.length < count.toNat := by
      rw [← hlen, hl, List.length_append, List.length_cons]
      omega
    have hm : members[done.length]? = some m := by
      rw [← List.getElem?_take_of_lt hlt, hl, List.getElem?_append_right (Nat.le_refl _), Nat.sub_self]
      rfl
    rw [Nat.zero_add]
    exact hg.step hm (hfits m (by rw [hl]; simp)) (by omega)
  have hrun : ∃ g', each (placeMember members) 0 (members.take count.toNat).length
      { g with id := name, memberCount := count, readyCount := 0 } = some g' ∧
      Placed name count (members.take count.toNat) g' :=
    each_keeps (Placed name count) hround ⟨rfl, rfl, rfl, Holds.nil, Holds.nil⟩
  obtain ⟨g', hrun, hg'⟩ := hrun
  rw [hlen] at hrun
  refine ⟨g', by simp only [place, hname, Option.bind_eq_bind, Option.bind_some, hrun], ?_⟩
  exact {
    id := ⟨id, rfl, by rw [hg'.id]; exact hs⟩
    memberCount := by
      rw [hg'.memberCount, PlainQueue.arrival, List.length_map, hlen]
      omega
    members := hg'.members.map fun m _ name hn => hn
    ready := hg'.ready.map fun m _ r hr => hr
    readyCount := by
      have hdown : ∀ f ∈ (members.take count.toNat).map fun m => (m, false), ¬ f.2 = true := by
        intro f hf
        obtain ⟨m, -, rfl⟩ := List.mem_map.mp hf
        exact Bool.false_ne_true
      rw [hg'.readyCount, PlainQueue.arrival, List.countP_eq_zero.mpr hdown]
      rfl
    nodup := by
      rw [PlainQueue.arrival_members]
      exact hnd }


def queuedOf (q : PlainQueue CString CString) (ms : List CString) : List CString :=
  ms.filter fun m => (q.groupOf m).isSome

/-- What the rounds of the reporting loop have written. -/
inductive Noted (q : PlainQueue CString CString) (error : Message) (done : List CString) :
    Message × Nat × Bool → Prop where
  | nothing (hnone : queuedOf q done = []) : Noted q error done (error, 0, false)
  | named {error' : Message} (hsome : queuedOf q done ≠ [])
      (hs : Stored error' 0 (clip maxMsg (said (.membersInQueue (queuedOf q done) [])))) :
      Noted q error done
        (error', (clip maxMsg (said (.membersInQueue (queuedOf q done) []))).length, true)

theorem said_membersInQueue_concat (ms : List CString) (m : CString) :
    said (.membersInQueue (ms ++ [m]) []) =
      said (.membersInQueue ms []) ++ literal " " ++ m.chars := by
  simp only [said, List.flatMap_append, List.flatMap_singleton, List.append_assoc]

theorem append_member {error : Message} {text : List UInt8}
    (hs : Stored error 0 (clip maxMsg text)) (m : CString) :
    ∃ error₁ error₂, append error (clip maxMsg text).length (literal " ") =
        some (error₁, (clip maxMsg (text ++ literal " ")).length) ∧
      append error₁ (clip maxMsg (text ++ literal " ")).length m.chars =
        some (error₂, (clip maxMsg (text ++ literal " " ++ m.chars)).length) ∧
      Stored error₂ 0 (clip maxMsg (text ++ literal " " ++ m.chars)) := by
  obtain ⟨error₁, hput₁, hs₁⟩ := put_concat hs (literal " ")
  obtain ⟨error₂, hput₂, hs₂⟩ := put_concat hs₁ m.chars
  exact ⟨error₁, error₂, hput₁, hput₂, hs₂⟩

theorem Noted.step (h : Keeps c q) {error : Message} {members done : List CString} {m : CString}
    {s : Message × Nat × Bool} (hm : members[done.length]? = some m) (hs : Noted q error done s) :
    ∃ s', noteQueued c members done.length s = some s' ∧ Noted q error (done ++ [m]) s' := by
  have hcontains := h.contains m
  cases hof : (q.groupOf m).isSome with
  | false =>
    rw [hof] at hcontains
    have hsame : queuedOf q (done ++ [m]) = queuedOf q done := by
      simp [queuedOf, List.filter_append, hof]
    refine ⟨s, ?_, ?_⟩
    · obtain ⟨error', len, queued⟩ := s
      simp only [noteQueued, hm, hcontains, Option.bind_eq_bind, Option.bind_some,
        Bool.false_eq_true, if_false]
      rfl
    · cases hs with
      | nothing hnone => exact .nothing (hsame.trans hnone)
      | named hsome hs =>
        rw [← hsame] at hs hsome ⊢
        exact .named hsome hs
  | true =>
    rw [hof] at hcontains
    have hmore : queuedOf q (done ++ [m]) = queuedOf q done ++ [m] := by
      simp [queuedOf, List.filter_append, hof]
    have hne : queuedOf q (done ++ [m]) ≠ [] := by
      rw [hmore]
      exact List.concat_ne_nil _ _
    cases hs with
    | nothing hnone =>
      obtain ⟨error₀, hput, hs₀⟩ := put_zero (by decide) (error.set 0 0 (by decide))
        (said (.membersInQueue [] []))
      obtain ⟨error₁, error₂, hput₁, hput₂, hs₂⟩ := append_member hs₀ m
      rw [hnone, List.nil_append] at hmore
      rw [← said_membersInQueue_concat, List.nil_append, ← hmore] at hs₂ hput₂
      refine ⟨_, ?_, .named hne hs₂⟩
      have hheader : append (error.set 0 0 (by decide)) 0 (literal "members already in the queue:") =
          some (error₀, (clip maxMsg (said (.membersInQueue [] []))).length) := by
        rw [append, ← hput, said, List.flatMap_nil, List.append_nil]
      simp only [noteQueued, hm, hcontains, Option.bind_eq_bind, Option.bind_some, if_true,
        Bool.false_eq_true, if_false, write_of_lt (show 0 < maxMsg by decide), hheader, hput₁, hput₂]
      rfl
    | named hsome hs =>
      obtain ⟨error₁, error₂, hput₁, hput₂, hs₂⟩ := append_member hs m
      rw [← said_membersInQueue_concat, ← hmore] at hs₂ hput₂
      refine ⟨_, ?_, .named hne hs₂⟩
      simp only [noteQueued, hm, hcontains, Option.bind_eq_bind, Option.bind_some, if_true, hput₁,
        hput₂]
      rfl

/-- The report names the members that the line holds already, as far as they fit. -/
theorem noteQueued_eq (h : Keeps c q) {members : List CString} {k : Nat} (hk : k ≤ members.length) :
    ∃ s, each (noteQueued c members) 0 k (c.error, 0, false) = some s ∧
      Noted q c.error (members.take k) s := by
  have hlen : (members.take k).length = k := by
    rw [List.length_take]
    omega
  have hround : ∀ (done : List CString) (m : CString) (rest : List CString)
      (s : Message × Nat × Bool), members.take k = done ++ m :: rest → Noted q c.error done s →
      ∃ s', noteQueued c members (0 + done.length) s = some s' ∧
        Noted q c.error (done ++ [m]) s' := by
    intro done m rest s hl hs
    have hlt : done.length < k := by
      rw [← hlen, hl, List.length_append, List.length_cons]
      omega
    have hm : members[done.length]? = some m := by
      rw [← List.getElem?_take_of_lt hlt, hl, List.getElem?_append_right (Nat.le_refl _), Nat.sub_self]
      rfl
    rw [Nat.zero_add]
    exact hs.step h hm
  have hrun : ∃ s, each (noteQueued c members) 0 (members.take k).length (c.error, 0, false) =
      some s ∧ Noted q c.error (members.take k) s :=
    each_keeps (Noted q c.error) hround (.nothing rfl)
  rwa [hlen] at hrun

end Tito.Slots
