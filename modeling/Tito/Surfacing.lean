import Tito.Peeking

namespace Tito

open Lib Lib.Heapq Lib.LazyHeap

variable {I M : Type}

/-- All that `peek` needs of the ready index: a heap that holds every key of the map. What else
is in the heap, and how often, does not matter. -/
structure Covers (w : World I M) : Prop where
  heap : IsHeap w.readyHeap
  holds : ∀ s ∈ w.readyGroups.keys, s ∈ w.readyHeap

/-- The group at the smallest key of the ready map. -/
def IsOldestReady (w : World I M) (h : Handle) : Prop :=
  ∃ s, w.readyGroups.get? s = some h ∧ ∀ s' ∈ w.readyGroups.keys, s ≤ s'

/-- What a relaxed `peek` found, and what it did to the index. -/
structure Surfaced (w : World I M) (found : Option Handle) (w' : World I M) : Prop where
  oldest : ∀ h, found = some h ↔ IsOldestReady w h
  nothing : found = none ↔ w.readyGroups = Dict.empty
  discards : ∃ stale : List Nat, (stale ++ w'.readyHeap).Perm w.readyHeap ∧
    ∀ s ∈ stale, s ∉ w.readyGroups.keys
  map : w'.readyGroups = w.readyGroups
  covers : Covers w'

theorem IsOldestReady.unique {w : World I M} {h h' : Handle} (hh : IsOldestReady w h)
    (hh' : IsOldestReady w h') : h = h' := by
  obtain ⟨s, hs, hle⟩ := hh
  obtain ⟨s', hs', hle'⟩ := hh'
  have he : s = s' :=
    Nat.le_antisymm (hle s' (Dict.mem_keys_of_get? hs')) (hle' s (Dict.mem_keys_of_get? hs))
  rw [he, hs'] at hs
  exact (Option.some.inj hs).symm

theorem eq_empty_of_no_keys {w : World I M} (h : ∀ s, s ∉ w.readyGroups.keys) :
    w.readyGroups = Dict.empty :=
  Dict.ext (List.eq_nil_iff_forall_not_mem.mpr fun e he => h e.1 (List.mem_map_of_mem he))

theorem covers_dropStale {w : World I M} (hw : Covers w) {w' : World I M}
    (hheap : w'.readyHeap = dropStale w.readyGroups.contains w.readyHeap)
    (hmap : w'.readyGroups = w.readyGroups) : Covers w' where
  heap := by
    rw [hheap]
    exact dropStale_isHeap hw.heap
  holds := by
    intro s hs
    rw [hmap] at hs
    rw [hheap]
    exact mem_dropStale (hw.holds s hs) (Dict.contains_iff.mpr hs)

theorem oldest_surfaces {w : World I M} (hw : Covers w) {top : Nat} {rest : List Nat}
    (hd : dropStale w.readyGroups.contains w.readyHeap = top :: rest) :
    ∃ h, w.readyGroups.get? top = some h ∧ IsOldestReady w h := by
  obtain ⟨h, hh⟩ := Dict.mem_keys_iff.mp (Dict.contains_iff.mp (dropStale_cons_live hd))
  refine ⟨h, hh, top, hh, fun s hs => ?_⟩
  exact dropStale_cons_least hw.heap hd s (hw.holds s hs) (Dict.contains_iff.mpr hs)

theorem empty_of_nothing_surfaces {w : World I M} (hw : Covers w)
    (hd : dropStale w.readyGroups.contains w.readyHeap = []) : w.readyGroups = Dict.empty := by
  refine eq_empty_of_no_keys fun s hs => ?_
  have hstale := dropStale_eq_nil hd s (hw.holds s hs)
  exact Dict.contains_eq_false_iff.mp hstale hs

variable [DecidableEq I] [DecidableEq M]

theorem peekLoop_surfaced {w : World I M} (hw : Covers w) :
    Surfaced w (peekLoop w).1 (peekLoop w).2 := by
  obtain ⟨⟨_, hl⟩, -⟩ := peekLoop_spec w
  obtain ⟨stale, hperm, hstale⟩ := dropStale_perm w.readyGroups.contains w.readyHeap
  have hdiscards : ∃ stale : List Nat, (stale ++ (peekLoop w).2.readyHeap).Perm w.readyHeap ∧
      ∀ s ∈ stale, s ∉ w.readyGroups.keys :=
    ⟨stale, by rwa [hl], fun s hs => Dict.contains_eq_false_iff.mp (hstale s hs)⟩
  have hmap : (peekLoop w).2.readyGroups = w.readyGroups := by rw [hl]
  have hcovers : Covers (peekLoop w).2 := covers_dropStale hw (by rw [hl]) hmap
  cases hd : dropStale w.readyGroups.contains w.readyHeap with
  | nil =>
    have hfound : (peekLoop w).1 = none := by rw [hl, hd]; rfl
    have hempty := empty_of_nothing_surfaces hw hd
    rw [hfound]
    refine ⟨fun h => ⟨fun hn => (nomatch hn), ?_⟩, ⟨fun _ => hempty, fun _ => rfl⟩, hdiscards, hmap,
      hcovers⟩
    rintro ⟨s, hs, -⟩
    rw [hempty] at hs
    cases hs
  | cons top rest =>
    obtain ⟨h, hh, holdest⟩ := oldest_surfaces hw hd
    have hfound : (peekLoop w).1 = some h := by rw [hl, hd]; exact hh
    rw [hfound]
    refine ⟨fun h' => ⟨?_, ?_⟩, ⟨fun hn => (nomatch hn), ?_⟩, hdiscards, hmap, hcovers⟩
    · rintro hh'
      rwa [← Option.some.inj hh']
    · exact fun hh' => congrArg some (holdest.unique hh')
    · intro hempty
      rw [hempty] at hh
      cases hh

omit [DecidableEq I] [DecidableEq M] in
theorem compacted_covers {w : World I M} (hw : Covers w) :
    Covers w.compacted ∧ w.compacted.readyGroups = w.readyGroups := by
  rw [World.compacted]
  split
  · exact ⟨hw, rfl⟩
  · exact ⟨⟨heapify_isHeap _, fun s hs => (heapify_perm _).mem_iff.mpr hs⟩, rfl⟩

omit [DecidableEq I] [DecidableEq M] in
theorem isOldestReady_congr {w w' : World I M} (h : w'.readyGroups = w.readyGroups) (k : Handle) :
    IsOldestReady w' k ↔ IsOldestReady w k := by
  rw [IsOldestReady, IsOldestReady, h]

omit [DecidableEq I] [DecidableEq M] in
/-- What surfaces depends on the map alone. -/
theorem Surfaced.found_eq {w w' u u' : World I M} {o o' : Option Handle} (h : Surfaced w o w')
    (h' : Surfaced u o' u') (hmap : u.readyGroups = w.readyGroups) : o' = o := by
  refine Option.ext fun k => ?_
  rw [h'.oldest k, h.oldest k, isOldestReady_congr hmap]

/-- Over any heap that covers the ready map, whatever stale entries are in it, a relaxed `peek`
returns the group at the smallest key and discards stale entries only. A compaction before it,
whether its threshold is reached or not, changes neither the answer nor the map. -/
theorem peek_finds_oldest {w : World I M} (hs : w.strictOrder = false) (hw : Covers w) :
    ∃ found w' v v', peek.run w = .ok found w' ∧ Surfaced w found w' ∧
      compactReadyHeap.run w = .ok () v ∧ Covers v ∧ v.readyGroups = w.readyGroups ∧
      peek.run v = .ok found v' ∧ Surfaced v found v' := by
  have hrun : ∀ u : World I M, u.strictOrder = false →
      peek.run u = .ok (peekLoop u).1 (peekLoop u).2 := by
    intro u hu
    simp [peek, hu]
  have hv : w.compacted.strictOrder = false := by
    rw [World.compacted]
    split <;> exact hs
  obtain ⟨hcovers, hmap⟩ := compacted_covers hw
  have hsurf := peekLoop_surfaced hw
  have hsurf' := peekLoop_surfaced hcovers
  have hfound := hsurf.found_eq hsurf' hmap
  refine ⟨_, _, w.compacted, _, hrun w hs, hsurf, compactReadyHeap_run w, hcovers, hmap, ?_,
    hfound ▸ hsurf'⟩
  rw [hrun _ hv, hfound]

/-- Two stale entries lie above the smallest key, one of them twice. -/
theorem peek_finds_oldest_stale :
    let w : World Nat Nat :=
      { World.init false with
        readyHeap := heapify [4, 1, 2, 1]
        readyGroups := (Dict.empty.set 4 0).set 2 1 }
    ∃ found w' v v', peek.run w = .ok found w' ∧ Surfaced w found w' ∧
      compactReadyHeap.run w = .ok () v ∧ Covers v ∧ v.readyGroups = w.readyGroups ∧
      peek.run v = .ok found v' ∧ Surfaced v found v' := by
  intro w
  refine peek_finds_oldest rfl ⟨heapify_isHeap _, fun s hs => (heapify_perm _).mem_iff.mpr ?_⟩
  have hkeys : w.readyGroups.keys = [4, 2] := by decide
  have hin : ∀ s ∈ [4, 2], s ∈ [4, 1, 2, 1] := by decide
  exact hin s (hkeys ▸ hs)

end Tito
