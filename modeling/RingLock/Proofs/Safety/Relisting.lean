import RingLock.Proofs.Arena.Description

/-!
# Solving and the order of a description

What a region holds is a set of locations. On such sets the controllable predecessor, and so every
round, is read off the locations, the actions and the moves alone. Two descriptions that list the
same things in other orders number them differently. But as long as the targets hold the same
locations, so do the regions after each round. They settle together, and the solvers count the same.
-/
namespace RingLock

/-- Lists with the same items are the same up to order, once repetitions are dropped. -/
theorem eraseDups_perm {α : Type} [BEq α] [LawfulBEq α] {xs ys : List α}
    (same : ∀ x, x ∈ xs ↔ x ∈ ys) : xs.eraseDups.Perm ys.eraseDups := by
  refine (List.perm_ext_iff_of_nodup (nodup_eraseDups xs) (nodup_eraseDups ys)).2 fun x => ?_
  rw [List.mem_eraseDups, List.mem_eraseDups, same]

namespace Arena

variable {L : Type} [DecidableEq L] [Hashable L]

/-- The locations that a region holds. -/
def held (g : Arena L) (r : Region) : Set L := {l | g.Holds r l}

@[simp] theorem mem_held {g : Arena L} {r : Region} {l : L} : l ∈ g.held r ↔ g.Holds r l := Iff.rfl

/-- The given locations with an action all of whose moves lead into a set. -/
def sources (locations : List L) (actions : List Action) (moves : List (L × Action × L))
    (s : Set L) : Set L :=
  {l | l ∈ locations ∧ ∃ a ∈ actions, ∀ m, (l, a, m) ∈ moves → m ∈ s}

/-- There are as many locations as ids in a region. -/
theorem ncard_held {g : Arena L} (small : g.size ≤ UInt32.size) {r : Region}
    (fits : r.bound = g.size) : (g.held r).ncard = r.ids.ncard := by
  refine Set.ncard_congr (fun l holds => holds.choose) ?_ ?_ ?_
  · exact fun l holds => holds.choose_spec.2
  · intro l m hl hm same
    exact idOf?_inj small hl.choose_spec.1 (same ▸ hm.choose_spec.1)
  · intro id member
    obtain ⟨l, found⟩ := Numbering.exists_of_lt_size (fits ▸ Region.index_lt_bound member)
    have hl : g.idOf? l = some id := (idOf?_eq_some small).2 found
    have holds : g.Holds r l := ⟨id, hl, member⟩
    exact ⟨l, holds, Option.some.inj (holds.choose_spec.1.symm.trans hl)⟩

/-- Regions with the bound of the arena that hold the same locations have the same ids. -/
theorem ids_eq_of_held_eq {g : Arena L} (small : g.size ≤ UInt32.size) {r s : Region}
    (hr : r.bound = g.size) (hs : s.bound = g.size) (same : g.held r = g.held s) :
    r.ids = s.ids := by
  ext id
  by_cases inside : id.index < g.size
  · obtain ⟨l, found⟩ := Numbering.exists_of_lt_size inside
    have hl : g.idOf? l = some id := (idOf?_eq_some small).2 found
    have holds : g.Holds r l ↔ g.Holds s l := Set.ext_iff.1 same l
    rwa [holds_iff hl, holds_iff hl] at holds
  · constructor
    · exact fun member => absurd (hr ▸ Region.index_lt_bound member) inside
    · exact fun member => absurd (hs ▸ Region.index_lt_bound member) inside

/-- The members of a region are the locations that it holds, each listed once. -/
theorem exists_members? {g : Arena L} (small : g.size ≤ UInt32.size) {r : Region}
    (fits : r.bound = g.size) :
    ∃ ls, g.members? r = some ls ∧ ls.Nodup ∧ ∀ l, l ∈ ls ↔ g.Holds r l := by
  have bounded : r.bound ≤ UInt32.size := fits ▸ small
  have known : ∀ id ∈ r.toList, (g.location? id).isSome := by
    intro id member
    have inside := Region.index_lt_bound ((Region.mem_toList bounded).1 member)
    obtain ⟨l, found⟩ := Numbering.exists_of_lt_size (fits ▸ inside)
    rw [(location?_eq_some small).2 ((idOf?_eq_some small).2 found)]
    rfl
  obtain ⟨ls, run⟩ := Traversal.exists_mapM known
  refine ⟨ls, run, Traversal.nodup_mapM ?_ (Region.nodup_toList bounded) run, fun l => ?_⟩
  · intro id id' l hl hl'
    rw [location?_eq_some small] at hl hl'
    exact Option.some.inj (hl.symm.trans hl')
  · rw [Traversal.mem_mapM run]
    simp only [Region.mem_toList bounded, location?_eq_some small, Holds, and_comm]

section

variable [Inspect L] {locations : List L} {initial : L} {actions : List Action}
  {moves : List (L × Action × L)} {g : Arena L}

/-- On sets of locations, the controllable predecessor mentions no id. -/
theorem held_controllable (h : build locations initial actions moves = .ok g)
    (small : g.size < UInt32.size) (r : Region) :
    g.held (g.controllable r) = sources locations actions moves (g.held r) := by
  have wf := wellFormed_of_build h
  ext l
  constructor
  · rintro ⟨id, hl, member⟩
    have predecessor := (contains_controllable wf small r id).1 member
    obtain ⟨a, listed, keeps⟩ := (mem_predecessor_iff h small.le hl).1 predecessor
    refine ⟨(mem_locations_of_build h).1 (Holds.listed ⟨id, hl, member⟩), a, listed, ?_⟩
    intro m move
    obtain ⟨next, hm⟩ := exists_idOf? (listed_of_build h move).2.2
    exact ⟨next, hm, keeps m next move hm⟩
  · rintro ⟨inside, a, listed, keeps⟩
    obtain ⟨id, hl⟩ := exists_idOf? ((mem_locations_of_build h).2 inside)
    refine ⟨id, hl, (contains_controllable wf small r id).2 ?_⟩
    refine (mem_predecessor_iff h small.le hl).2 ⟨a, listed, fun m next move hm => ?_⟩
    exact (holds_iff hm).1 (keeps m move)

/-- One round on sets of locations. -/
theorem held_narrow (h : build locations initial actions moves = .ok g)
    (small : g.size < UInt32.size) {r : Region} (fits : r.bound = g.size) :
    g.held (g.narrow r) = g.held r ∩ sources locations actions moves (g.held r) := by
  have both (id : LocId) : (g.narrow r).contains id ↔
      r.contains id ∧ (g.controllable r).contains id := by
    rw [narrow, Region.contains_inter (fits ▸ small), Bool.and_eq_true]
  rw [← held_controllable h small]
  ext l
  constructor
  · rintro ⟨id, hl, member⟩
    exact ⟨⟨id, hl, ((both id).1 member).1⟩, id, hl, ((both id).1 member).2⟩
  · rintro ⟨⟨id, hl, member⟩, controlled⟩
    exact ⟨id, hl, (both id).2 ⟨member, (holds_iff hl).1 controlled⟩⟩

end

/-- Two descriptions list the same locations, actions and moves. -/
structure SameSets (locations locations' : List L) (actions actions' : List Action)
    (moves moves' : List (L × Action × L)) : Prop where
  locations_iff : ∀ l, l ∈ locations ↔ l ∈ locations'
  actions_iff : ∀ a, a ∈ actions ↔ a ∈ actions'
  moves_iff : ∀ m, m ∈ moves ↔ m ∈ moves'

omit [DecidableEq L] [Hashable L] in
theorem SameSets.sources_eq {locations locations' : List L} {actions actions' : List Action}
    {moves moves' : List (L × Action × L)}
    (same : SameSets locations locations' actions actions' moves moves') (s : Set L) :
    sources locations actions moves s = sources locations' actions' moves' s := by
  simp only [sources, same.locations_iff, same.actions_iff, same.moves_iff]

/-- Regions of two arenas, with right numbers, that hold the same locations. -/
structure Alike (g : Arena L) (r : Region) (h : Arena L) (s : Region) : Prop where
  bound_left : r.bound = g.size
  bound_right : s.bound = h.size
  counted_left : r.Counted
  counted_right : s.Counted
  held_eq : g.held r = h.held s

/-- Alike regions store the same number. -/
theorem Alike.count_eq {g h : Arena L} {r s : Region} (alike : g.Alike r h s)
    (small : g.size ≤ UInt32.size) (small' : h.size ≤ UInt32.size) : r.count = s.count := by
  apply UInt64.toNat_inj.1
  calc r.size = r.ids.ncard := alike.counted_left
    _ = (g.held r).ncard := (ncard_held small alike.bound_left).symm
    _ = (h.held s).ncard := by rw [alike.held_eq]
    _ = s.ids.ncard := ncard_held small' alike.bound_right
    _ = s.size := alike.counted_right.symm

/-- Regions of two arenas list the same members. -/
def SameMembers (g : Arena L) (r : Region) (h : Arena L) (s : Region) : Prop :=
  ∃ ls ms, g.members? r = some ls ∧ h.members? s = some ms ∧ ls.Perm ms

theorem Alike.sameMembers {g h : Arena L} {r s : Region} (alike : g.Alike r h s)
    (small : g.size ≤ UInt32.size) (small' : h.size ≤ UInt32.size) : g.SameMembers r h s := by
  obtain ⟨ls, run, distinct, held⟩ := exists_members? small alike.bound_left
  obtain ⟨ms, run', distinct', held'⟩ := exists_members? small' alike.bound_right
  refine ⟨ls, ms, run, run', (List.perm_ext_iff_of_nodup distinct distinct').2 fun l => ?_⟩
  rw [held, held', ← mem_held, alike.held_eq, mem_held]

/-- A round changes a region if and only if it changes what the region holds. -/
theorem narrow_eq_iff {g : Arena L} (small : g.size < UInt32.size) {r : Region}
    (fits : r.bound = g.size) (counted : r.Counted) :
    g.narrow r = r ↔ g.held (g.narrow r) = g.held r := by
  have bounded : r.bound < UInt32.size := fits ▸ small
  have bound := bound_narrow g bounded
  constructor
  · exact fun stable => by rw [stable]
  · intro same
    have ids := ids_eq_of_held_eq small.le (bound.trans fits) fits same
    exact Region.eq_of_ids_eq bound (bound ▸ bounded.le) ids (g.counted_narrow r) counted

section

variable [Inspect L] {locations locations' : List L} {initial : L} {actions actions' : List Action}
  {moves moves' : List (L × Action × L)} {g h : Arena L} {r s : Region}
  (same : SameSets locations locations' actions actions' moves moves')
  (hg : build locations initial actions moves = .ok g)
  (hh : build locations' initial actions' moves' = .ok h)
  (small : g.size < UInt32.size) (small' : h.size < UInt32.size)
include same hg hh small small'

theorem Alike.controllable (alike : g.Alike r h s) :
    g.Alike (g.controllable r) h (h.controllable s) where
  bound_left := bound_controllable small r
  bound_right := bound_controllable small' s
  counted_left := Region.counted_ofFn ..
  counted_right := Region.counted_ofFn ..
  held_eq := by
    rw [held_controllable hg small, held_controllable hh small', alike.held_eq, same.sources_eq]

theorem Alike.narrow (alike : g.Alike r h s) : g.Alike (g.narrow r) h (h.narrow s) where
  bound_left := (bound_narrow g (alike.bound_left ▸ small)).trans alike.bound_left
  bound_right := (bound_narrow h (alike.bound_right ▸ small')).trans alike.bound_right
  counted_left := g.counted_narrow r
  counted_right := h.counted_narrow s
  held_eq := by
    rw [held_narrow hg small alike.bound_left, held_narrow hh small' alike.bound_right,
      alike.held_eq, same.sources_eq]

theorem Alike.rounds (alike : g.Alike r h s) (k : ℕ) :
    g.Alike (g.rounds r k) h (h.rounds s k) := by
  induction k with
  | zero => exact alike
  | succ k ih =>
    rw [rounds_succ, rounds_succ]
    exact ih.narrow same hg hh small small'

/-- A round changes both of two alike regions or neither. -/
theorem Alike.stable_iff (alike : g.Alike r h s) : g.narrow r = r ↔ h.narrow s = s := by
  have next := alike.narrow same hg hh small small'
  rw [narrow_eq_iff small alike.bound_left alike.counted_left,
    narrow_eq_iff small' alike.bound_right alike.counted_right, next.held_eq, alike.held_eq]

theorem Alike.settles (alike : g.Alike r h s) {k : ℕ} (settles : g.Settles r k) :
    h.Settles s k where
  stable := ((alike.rounds same hg hh small small' k).stable_iff same hg hh small small').1
    settles.stable
  moving j earlier := by
    rw [Ne, ← (alike.rounds same hg hh small small' j).stable_iff same hg hh small small']
    exact settles.moving j earlier

theorem alike_regionWhere (p : L → Bool) : g.Alike (g.regionWhere p) h (h.regionWhere p) where
  bound_left := bound_regionWhere small p
  bound_right := bound_regionWhere small' p
  counted_left := Region.counted_ofFn ..
  counted_right := Region.counted_ofFn ..
  held_eq := by
    ext l
    rw [mem_held, mem_held, holds_regionWhere small, holds_regionWhere small',
      mem_locations_of_build hg, mem_locations_of_build hh, same.locations_iff]

end

section

variable [Inspect L] {locations locations' : List L} {initial : L} {actions actions' : List Action}
  {moves moves' : List (L × Action × L)}

/-- What can be built: the initial location is listed, and no move mentions what is not. -/
theorem exists_build_iff : (∃ g, build locations initial actions moves = .ok g) ↔
    initial ∈ locations ∧ ∀ m ∈ moves, Inside locations actions m := by
  constructor
  · rintro ⟨g, built⟩
    obtain ⟨first, -, placed, -⟩ := build_eq_ok built
    refine ⟨Numbering.mem_toList_ofList.1 (Numbering.mem_of_find? placed), fun m member => ?_⟩
    obtain ⟨source, action, target⟩ := listed_of_build built member
    exact ⟨(mem_locations_of_build built).1 source, (mem_actions_of_build built).1 action,
      (mem_locations_of_build built).1 target⟩
  · rintro ⟨listed, inside⟩
    exact exists_build listed inside

theorem SameSets.exists_build_iff
    (same : SameSets locations locations' actions actions' moves moves') :
    (∃ g, build locations initial actions moves = .ok g) ↔
      ∃ h, build locations' initial actions' moves' = .ok h := by
  rw [Arena.exists_build_iff, Arena.exists_build_iff]
  simp only [Inside, same.locations_iff, same.actions_iff, same.moves_iff]

variable (initial) in
/-- Solving does not depend on the order of a description. If the same locations, actions and moves
are listed twice, with whatever repetitions, either both descriptions are refused or both are built.
Then both arenas have as many moves, and for every predicate the winning regions of its locations
list the same members. So do the controllable predecessors. The statistics agree. -/
theorem solving_ignores_order
    (same : SameSets locations locations' actions actions' moves moves')
    (few : locations.eraseDups.length < UInt32.size - 2) :
    ((∃ g, build locations initial actions moves = .ok g) ↔
      ∃ h, build locations' initial actions' moves' = .ok h) ∧
    ∀ g h, build locations initial actions moves = .ok g →
      build locations' initial actions' moves' = .ok h →
      g.moveCount = h.moveCount ∧
      ∀ p prior prior', ∃ w w' stats,
        Solver.winning? g prior (g.regionWhere p) = some (w, stats) ∧
        Solver.winning? h prior' (h.regionWhere p) = some (w', stats) ∧
        g.SameMembers w h w' ∧
        g.SameMembers (g.controllable w) h (h.controllable w') ∧
        g.SameMembers (g.controllable (g.regionWhere p)) h (h.controllable (h.regionWhere p)) := by
  refine ⟨same.exists_build_iff, fun g h hg hh => ?_⟩
  have sizes : g.size = h.size := by
    rw [size_of_build hg, size_of_build hh]
    exact (eraseDups_perm same.locations_iff).length_eq
  have small : g.size < UInt32.size - 2 := (size_of_build hg).trans_lt few
  have small' : h.size < UInt32.size - 2 := sizes ▸ small
  have bounded : g.size < UInt32.size := by omega
  have bounded' : h.size < UInt32.size := by omega
  constructor
  · rw [(shows_of_build hg bounded.le).moveCount_eq, (shows_of_build hh bounded'.le).moveCount_eq]
    exact (eraseDups_perm same.moves_iff).length_eq
  · intro p prior prior'
    have target := alike_regionWhere same hg hh bounded bounded' p
    obtain ⟨k, room, settles, -, run⟩ :=
      Solver.exists_winning? (wellFormed_of_build hg) small target.bound_left
    obtain ⟨k', room', settles', -, run'⟩ :=
      Solver.exists_winning? (wellFormed_of_build hh) small' target.bound_right
    obtain rfl : k' = k := settles'.unique (target.settles same hg hh bounded bounded' settles)
    have result := target.rounds same hg hh bounded bounded' k'
    have counts := target.count_eq bounded.le bounded'.le
    have counts' := result.count_eq bounded.le bounded'.le
    refine ⟨_, _, _, run prior, ?_, result.sameMembers bounded.le bounded'.le,
      (result.controllable same hg hh bounded bounded').sameMembers bounded.le bounded'.le,
      (target.controllable same hg hh bounded bounded').sameMembers bounded.le bounded'.le⟩
    rw [run', counts, counts']

end

/-- A description with repetitions, and one without them that numbers the locations otherwise. -/
theorem solving_of_repetitions : ∃ g h : Arena UInt8,
    build [5, 3, 5] 3 [⟨1⟩, ⟨0⟩, ⟨1⟩] [(3, ⟨1⟩, 5), (5, ⟨0⟩, 5), (3, ⟨1⟩, 5)] = .ok g ∧
    build [3, 5] 3 [⟨0⟩, ⟨1⟩] [(5, ⟨0⟩, 5), (3, ⟨1⟩, 5)] = .ok h ∧
    g.locations.toList = [5, 3] ∧ h.locations.toList = [3, 5] ∧
    ∀ p, ∃ w w' stats, Solver.winning? g .zero (g.regionWhere p) = some (w, stats) ∧
      Solver.winning? h .zero (h.regionWhere p) = some (w', stats) ∧ g.SameMembers w h w' := by
  have same : SameSets [(5 : UInt8), 3, 5] [3, 5] [⟨1⟩, ⟨0⟩, ⟨1⟩] [⟨0⟩, ⟨1⟩]
      [(3, ⟨1⟩, 5), (5, ⟨0⟩, 5), (3, ⟨1⟩, 5)] [(5, ⟨0⟩, 5), (3, ⟨1⟩, 5)] := by
    constructor <;> intro x <;> simp only [List.mem_cons, List.not_mem_nil] <;> tauto
  have few : ([5, 3, 5] : List UInt8).eraseDups.length < UInt32.size - 2 := by decide
  obtain ⟨both, solving⟩ := solving_ignores_order 3 same few
  obtain ⟨g, hg⟩ : ∃ g, build [(5 : UInt8), 3, 5] 3 [⟨1⟩, ⟨0⟩, ⟨1⟩]
      [(3, ⟨1⟩, 5), (5, ⟨0⟩, 5), (3, ⟨1⟩, 5)] = .ok g := exists_build (by decide) (by decide)
  obtain ⟨h, hh⟩ := both.1 ⟨g, hg⟩
  have small : g.size ≤ UInt32.size := by rw [size_of_build hg]; decide
  have small' : h.size ≤ UInt32.size := by rw [size_of_build hh]; decide
  refine ⟨g, h, hg, hh, (shows_of_build hg small).locations_eq,
    (shows_of_build hh small').locations_eq, fun p => ?_⟩
  obtain ⟨w, w', stats, run, run', members, -⟩ := (solving g h hg hh).2 p .zero .zero
  exact ⟨w, w', stats, run, run', members⟩

end Arena

end RingLock
