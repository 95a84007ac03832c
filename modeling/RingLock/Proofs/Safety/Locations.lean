import RingLock.Proofs.Safety.Greatest

/-!
# The winning region by location

In an arena built from moves, membership in a region and the safety fixpoint are read off the
locations and the moves themselves: the winning region holds the greatest set of locations of the
target each of which has an action all of whose moves stay in the set.
-/
namespace RingLock.Arena

variable {L : Type} [DecidableEq L] [Hashable L]

/-- The id of a location is in a region. Unlisted locations are in none. -/
def Holds (g : Arena L) (r : Region) (l : L) : Prop := ∃ id, g.idOf? l = some id ∧ r.contains id

theorem idOf?_eq_some {g : Arena L} (small : g.size ≤ UInt32.size) {l : L} {id : LocId} :
    g.idOf? l = some id ↔ g.locations.find? l = some id.index := by
  rw [idOf?, Option.map_eq_some_iff]
  constructor
  · rintro ⟨i, found, rfl⟩
    have bounded := (Numbering.lt_size_of_find? found).trans_le small
    rw [found, LocId.index_ofNat bounded]
  · intro found
    exact ⟨_, found, LocId.ofNat_index id⟩

/-- Two locations have different ids. -/
theorem idOf?_inj {g : Arena L} (small : g.size ≤ UInt32.size) {l m : L} {id : LocId}
    (hl : g.idOf? l = some id) (hm : g.idOf? m = some id) : l = m := by
  rw [idOf?_eq_some small] at hl hm
  exact Numbering.find?_inj hl hm

theorem exists_idOf? {g : Arena L} {l : L} (h : l ∈ g.locations.toList) :
    ∃ id, g.idOf? l = some id := by
  obtain ⟨i, found⟩ := Numbering.exists_find? h
  exact ⟨.ofNat i, by simp [idOf?, found]⟩

theorem location?_eq_some {g : Arena L} (small : g.size ≤ UInt32.size) {l : L} {id : LocId} :
    g.location? id = some l ↔ g.idOf? l = some id := by
  rw [idOf?_eq_some small, Numbering.find?_eq_some_iff]
  rfl

theorem holds_iff {g : Arena L} {r : Region} {l : L} {id : LocId} (h : g.idOf? l = some id) :
    g.Holds r l ↔ r.contains id := by
  simp [Holds, h]

theorem Holds.listed {g : Arena L} {r : Region} {l : L} (h : g.Holds r l) :
    l ∈ g.locations.toList := by
  obtain ⟨id, found, -⟩ := h
  obtain ⟨i, found, -⟩ := Option.map_eq_some_iff.1 found
  exact Numbering.mem_of_find? found

/-- A region with the bound of the arena is empty if and only if it holds no location. -/
theorem isEmpty_iff_holds {g : Arena L} (small : g.size ≤ UInt32.size) {r : Region}
    (fits : r.bound = g.size) (counted : r.Counted) : r.isEmpty ↔ ∀ l, ¬g.Holds r l := by
  rw [counted.isEmpty_iff (fits ▸ small)]
  constructor
  · rintro none_left l ⟨id, -, member⟩
    exact none_left id member
  · intro none_left id member
    have inside : id.index < g.size := fits ▸ Region.index_lt_bound member
    obtain ⟨l, found⟩ := Numbering.exists_of_lt_size inside
    exact none_left l ⟨id, (idOf?_eq_some small).2 found, member⟩

theorem bound_regionWhere {g : Arena L} (small : g.size < UInt32.size) (p : L → Bool) :
    (g.regionWhere p).bound = g.size := by
  rw [regionWhere, Region.bound_ofFn, Nat.mod_eq_of_lt small]

theorem holds_regionWhere {g : Arena L} (small : g.size < UInt32.size) (p : L → Bool) (l : L) :
    g.Holds (g.regionWhere p) l ↔ l ∈ g.locations.toList ∧ p l := by
  constructor
  · intro h
    refine ⟨h.listed, ?_⟩
    obtain ⟨id, found, member⟩ := h
    rw [regionWhere, Region.contains_ofFn small, (location?_eq_some small.le).2 found] at member
    simp at member
    exact member.2
  · rintro ⟨listed, hp⟩
    obtain ⟨id, found⟩ := exists_idOf? listed
    have inside : id.index < g.size :=
      Numbering.lt_size_of_find? ((idOf?_eq_some small.le).1 found)
    rw [holds_iff found, regionWhere, Region.contains_ofFn small,
      (location?_eq_some small.le).2 found]
    simp [inside, hp]

theorem holds_complement {g : Arena L} (small : g.size < UInt32.size) {r : Region}
    (fits : r.bound = g.size) (l : L) :
    g.Holds r.complement l ↔ l ∈ g.locations.toList ∧ ¬g.Holds r l := by
  by_cases listed : l ∈ g.locations.toList
  · obtain ⟨id, found⟩ := exists_idOf? listed
    have inside : id.index < r.bound :=
      fits ▸ Numbering.lt_size_of_find? ((idOf?_eq_some small.le).1 found)
    rw [holds_iff found, holds_iff found, Region.complement, Region.contains_ofFn (fits ▸ small)]
    simp [inside, listed]
  · exact ⟨fun h => absurd h.listed listed, fun h => absurd h.1 listed⟩

variable [Inspect L] {locations : List L} {initial : L} {actions : List Action}
  {moves : List (L × Action × L)} {g : Arena L}

/-- Between listed locations, the successors are the moves. -/
theorem leads_iff_mem (h : build locations initial actions moves = .ok g)
    (small : g.size ≤ UInt32.size) {l m : L} {a : Action} {source target : LocId} {place : ℕ}
    (hl : g.idOf? l = some source) (hm : g.idOf? m = some target)
    (ha : g.actions.find? a = some place) : g.Leads place source target ↔ (l, a, m) ∈ moves := by
  rw [leads_of_build h]
  constructor
  · rintro ⟨⟨l', a', m'⟩, member, hs, hp, i, ht, same⟩
    obtain rfl : l' = l := idOf?_inj small ((idOf?_eq_some small).2 hs) hl
    obtain rfl : a' = a := Numbering.find?_inj hp ha
    obtain rfl : m' = m := idOf?_inj small (by simp [idOf?, ht, same]) hm
    exact member
  · intro member
    obtain ⟨i, found, same⟩ := Option.map_eq_some_iff.1 hm
    exact ⟨_, member, (idOf?_eq_some small).1 hl, ha, i, found, same⟩

/-- Whatever an id leads to is the id of some location. -/
theorem exists_location_of_leads (h : build locations initial actions moves = .ok g)
    {place : ℕ} {source target : LocId} (leads : g.Leads place source target) :
    ∃ m, g.idOf? m = some target := by
  obtain ⟨m, -, -, -, i, found, same⟩ := (leads_of_build h place source target).1 leads
  exact ⟨m.2.2, by simp [idOf?, found, same]⟩

theorem mem_actions_of_build (h : build locations initial actions moves = .ok g) {a : Action} :
    a ∈ g.actions.toList ↔ a ∈ actions := by
  obtain ⟨first, resolved, -, -, -, ha, -, -⟩ := build_eq_ok h
  rw [ha, Numbering.mem_toList_ofList]

theorem mem_locations_of_build (h : build locations initial actions moves = .ok g) {l : L} :
    l ∈ g.locations.toList ↔ l ∈ locations := by
  obtain ⟨first, resolved, -, -, hl, -, -, -⟩ := build_eq_ok h
  rw [hl, Numbering.mem_toList_ofList]

/-- The controllable predecessor of a set, read off the moves. -/
theorem mem_predecessor_iff (h : build locations initial actions moves = .ok g)
    (small : g.size ≤ UInt32.size) {s : Set LocId} {l : L} {id : LocId}
    (hl : g.idOf? l = some id) : id ∈ g.predecessor s ↔
      ∃ a ∈ actions, ∀ m next, (l, a, m) ∈ moves → g.idOf? m = some next → next ∈ s := by
  constructor
  · rintro ⟨-, place, listed, keeps⟩
    obtain ⟨a, ha⟩ := Numbering.exists_of_lt_size listed
    refine ⟨a, (mem_actions_of_build h).1 (Numbering.mem_of_find? ha), fun m next move hm => ?_⟩
    exact keeps next ((leads_iff_mem h small hl hm ha).2 move)
  · rintro ⟨a, listed, keeps⟩
    obtain ⟨place, ha⟩ := Numbering.exists_find? ((mem_actions_of_build h).2 listed)
    refine ⟨Numbering.lt_size_of_find? ((idOf?_eq_some small).1 hl), place,
      Numbering.lt_size_of_find? ha, fun next leads => ?_⟩
    obtain ⟨m, hm⟩ := exists_location_of_leads h leads
    exact keeps m next ((leads_iff_mem h small hl hm ha).1 leads) hm

/-- The sets of locations of a target in which the controller can stay. -/
def Stays (g : Arena L) (actions : List Action) (moves : List (L × Action × L)) (target : Region)
    (s : Set L) : Prop :=
  ∀ l ∈ s, g.Holds target l ∧ ∃ a ∈ actions, ∀ m, (l, a, m) ∈ moves → m ∈ s

theorem stays_of_predecessor (h : build locations initial actions moves = .ok g)
    (small : g.size ≤ UInt32.size) {target w : Region} (inside : w.ids ⊆ target.ids)
    (stays : w.ids ⊆ g.predecessor w.ids) : g.Stays actions moves target {l | g.Holds w l} := by
  rintro l ⟨id, hl, member⟩
  obtain ⟨a, listed, keeps⟩ := (mem_predecessor_iff h small hl).1 (stays member)
  refine ⟨⟨id, hl, inside member⟩, a, listed, fun m move => ?_⟩
  obtain ⟨next, hm⟩ := exists_idOf? (listed_of_build h move).2.2
  exact ⟨next, hm, keeps m next move hm⟩

theorem predecessor_of_stays (h : build locations initial actions moves = .ok g)
    (small : g.size ≤ UInt32.size) {target : Region} {s : Set L}
    (stays : g.Stays actions moves target s) :
    let ids := {id | ∃ l ∈ s, g.idOf? l = some id}
    ids ⊆ target.ids ∧ ids ⊆ g.predecessor ids := by
  intro ids
  constructor
  · rintro id ⟨l, member, hl⟩
    exact (holds_iff hl).1 (stays l member).1
  · rintro id ⟨l, member, hl⟩
    obtain ⟨a, listed, keeps⟩ := (stays l member).2
    exact (mem_predecessor_iff h small hl).2
      ⟨a, listed, fun m next move hm => ⟨m, keeps m move, hm⟩⟩

/-- The winning region holds the greatest set of locations in which the controller can stay. -/
theorem exists_winningRegion?_stays (h : build locations initial actions moves = .ok g)
    (small : g.size < UInt32.size - 2) {target : Region} (fits : target.bound = g.size) :
    ∃ w, g.winningRegion? target = some w ∧ w.bound = g.size ∧ w.Counted ∧
      IsGreatest {s | g.Stays actions moves target s} {l | g.Holds w l} := by
  have wf := wellFormed_of_build h
  have bounded : g.size < UInt32.size := by omega
  obtain ⟨k, -, settles, -, run⟩ := Solver.exists_winning? wf small fits
  obtain ⟨⟨inside, stays⟩, greatest⟩ := settles.isGreatest wf bounded fits
  refine ⟨g.rounds target k, by rw [winningRegion?, run]; rfl,
    (bound_rounds g (fits ▸ bounded) k).trans fits, settles.counted,
    stays_of_predecessor h bounded.le inside stays, fun s hs l member => ?_⟩
  obtain ⟨id, hl, -⟩ := (hs l member).1
  exact ⟨id, hl, greatest (predecessor_of_stays h bounded.le hs) ⟨l, member, hl⟩⟩

end RingLock.Arena
