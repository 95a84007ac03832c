import RingLock.Proofs.Arena.Moves

/-!
# Restored arenas

An arena is valid if everything holds of it that a construction guarantees. A valid arena is the one
that is built from its own locations, actions and moves, with its own classes attached. Restoring
bytes gives nothing but valid arenas, and the bytes begin with the form of what they give. So
whatever a caller can hold is valid.
-/
namespace RingLock

variable {L : Type} [DecidableEq L] [Hashable L]

namespace Arena

/-- Everything that a construction guarantees. The look-up tables are those of the lists. -/
structure Valid (g : Arena L) : Prop extends g.WellFormed where
  locations : Numbering.ofList g.locations.toList = g.locations
  actions : Numbering.ofList g.actions.toList = g.actions
  initial : g.initial.index < g.size
  increasing : ∀ {source action : ℕ} {ids : List LocId},
    g.successors.cell? source action = some ids → SuccessorTable.Increasing ids
  moveCount : g.moveCount = g.successors.count
  classes : ∀ classes ∈ g.classes, classes.size = g.size

/-- An arena without its classes. -/
def bare (g : Arena L) : Arena L := { g with classes := none }

/-- The arena is what `build` and `observe` make of what it shows. -/
def Rebuilds [Inspect L] (g : Arena L) : Prop :=
  ∃ initial, g.initialLocation? = some initial ∧
    build g.locations.toList initial g.actions.toList g.moves = .ok g.bare ∧
      if g.hasClasses then g.bare.observe g.class? = .ok g else g.bare = g

theorem listed_of_mem_moves {g : Arena L} {m : L × Action × L} (h : m ∈ g.moves) :
    m.1 ∈ g.locations.toList ∧ m.2.1 ∈ g.actions.toList ∧ m.2.2 ∈ g.locations.toList := by
  obtain ⟨i, j, ids, id, hl, ha, -, -, hm⟩ := mem_moves.1 h
  have target := (g.locations.find?_eq_some_iff m.2.2 id.index).2 hm
  exact ⟨Numbering.mem_of_find? hl, Numbering.mem_of_find? ha, Numbering.mem_of_find? target⟩

variable [Inspect L]

theorem increasing_of_build {locations : List L} {initial : L} {actions : List Action}
    {moves : List (L × Action × L)} {g : Arena L}
    (h : build locations initial actions moves = .ok g) {source action : ℕ} {ids : List LocId}
    (found : g.successors.cell? source action = some ids) : SuccessorTable.Increasing ids := by
  obtain ⟨first, resolved, -, -, -, -, -, table⟩ := build_eq_ok h
  obtain ⟨hs, ha⟩ := ((wellFormed_of_build h).sized.cell?_isSome source action).1 (by simp [found])
  rw [table, SuccessorTable.cell?_ofMoves hs ha] at found
  obtain rfl := Option.some.inj found
  exact SuccessorTable.increasing_tidy _

/-- The parts that a construction computes last. -/
theorem totals_of_build {locations : List L} {initial : L} {actions : List Action}
    {moves : List (L × Action × L)} {g : Arena L}
    (h : build locations initial actions moves = .ok g) :
    g.moveCount = g.successors.count ∧ g.classes = none := by
  unfold build at h
  cases found : (Numbering.ofList locations).find? initial with
  | none => simp [found] at h
  | some first =>
    simp only [found, Traversal.bind_eq_ok] at h
    obtain ⟨resolved, -, hg⟩ := h
    obtain rfl := Except.ok.inj hg
    exact ⟨rfl, rfl⟩

theorem valid_of_build {locations : List L} {initial : L} {actions : List Action}
    {moves : List (L × Action × L)} {g : Arena L}
    (h : build locations initial actions moves = .ok g) : g.Valid := by
  obtain ⟨first, -, found, -, hl, ha, hi, -⟩ := build_eq_ok h
  obtain ⟨count, plain⟩ := totals_of_build h
  refine ⟨wellFormed_of_build h, ?_, ?_, ?_, increasing_of_build h, count, ?_⟩
  case refine_1 => rw [hl, Numbering.ofList_toList]
  case refine_2 => rw [ha, Numbering.ofList_toList]
  case refine_3 =>
    rw [← hl] at found
    calc g.initial.index = first % UInt32.size := by rw [hi]; exact UInt32.toNat_ofNat'
      _ ≤ first := Nat.mod_le ..
      _ < g.size := Numbering.lt_size_of_find? found
  case refine_4 => simp [plain]

/-- Attaching classes gives each location its own. -/
theorem observe_eq_ok {g : Arena L} {classOf : L → Option ObservationClass}
    {classes : List ObservationClass} (enough : classes.length = g.locations.toList.length)
    (each : ∀ p ∈ g.locations.toList.zip classes, classOf p.1 = some p.2) :
    g.observe classOf = .ok { g with classes := some classes.toArray } := by
  unfold observe
  rw [Traversal.mapM_eq_ok enough]
  · rfl
  · intro p pair
    simp only [each p pair]

namespace Valid

variable {g b : Arena L} {initial : L}

/-- Built from the moves of an arena, an arena leads where that one does. -/
theorem leads_iff (valid : g.Valid)
    (h : build g.locations.toList initial g.actions.toList g.moves = .ok b) (place : ℕ)
    (source target : LocId) : b.Leads place source target ↔ g.Leads place source target := by
  obtain ⟨-, -, -, -, hl, ha, -, -⟩ := build_eq_ok h
  rw [leads_of_build h, hl, ha, valid.locations, valid.actions]
  constructor
  · rintro ⟨⟨l, a, m⟩, member, hs, hp, i, ht, rfl⟩
    obtain ⟨i', j', ids, id, hs', hp', listed, among, hm⟩ := mem_moves.1 member
    obtain rfl := Option.some.inj (hs'.symm.trans hs)
    obtain rfl := Option.some.inj (hp'.symm.trans hp)
    have place_of_id := (g.locations.find?_eq_some_iff m id.index).2 hm
    obtain rfl := Option.some.inj (place_of_id.symm.trans ht)
    rw [LocId.ofNat_index]
    exact ⟨ids, listed, among⟩
  · rintro ⟨ids, listed, among⟩
    obtain ⟨hs, hp⟩ := (valid.sized.cell?_isSome source.index place).1 (by
      rw [← successorsAt?_eq, listed]
      rfl)
    obtain ⟨l, hl⟩ := Numbering.exists_of_lt_size hs
    obtain ⟨a, ha⟩ := Numbering.exists_of_lt_size hp
    obtain ⟨m, hm⟩ := Numbering.exists_of_lt_size (valid.closed listed target among)
    have location := (g.locations.find?_eq_some_iff m target.index).1 hm
    refine ⟨(l, a, m), mem_moves.2 ⟨_, _, ids, target, hl, ha, listed, among, location⟩, hl, ha, ?_⟩
    exact ⟨target.index, hm, LocId.ofNat_index target⟩

/-- Built from the parts of a valid arena, an arena has its table. -/
theorem successors_eq (valid : g.Valid) (small : g.size ≤ UInt32.size)
    (h : build g.locations.toList initial g.actions.toList g.moves = .ok b) :
    b.successors = g.successors := by
  obtain ⟨-, -, -, -, hl, ha, -, -⟩ := build_eq_ok h
  rw [valid.locations] at hl
  rw [valid.actions] at ha
  have sized := (wellFormed_of_build h).sized
  rw [size, hl, ha] at sized
  apply sized.eq_of_cell? valid.sized
  intro source place
  by_cases inside : source < g.size ∧ place < g.actions.size
  case neg =>
    have none_left := (sized.cell?_isSome source place).not.2 inside
    have none_right := (valid.sized.cell?_isSome source place).not.2 inside
    rw [Option.not_isSome_iff_eq_none] at none_left none_right
    rw [none_left, none_right]
  case pos =>
    obtain ⟨xs, hx⟩ := Option.isSome_iff_exists.1 ((sized.cell?_isSome source place).2 inside)
    obtain ⟨ys, hy⟩ := Option.isSome_iff_exists.1 ((valid.sized.cell?_isSome source place).2 inside)
    have same := (increasing_of_build h hx).eq_of_mem_iff (valid.increasing hy) fun target => by
      have leads := valid.leads_iff h place (.ofNat source) target
      rw [Leads, Leads, successorsAt?_eq, successorsAt?_eq,
        LocId.index_ofNat (inside.1.trans_le small), hx, hy] at leads
      simpa using leads
    rw [hx, hy, same]

/-- A valid arena is built from its own parts. -/
theorem build_eq (valid : g.Valid) (small : g.size ≤ UInt32.size) :
    ∃ initial, g.initialLocation? = some initial ∧
      build g.locations.toList initial g.actions.toList g.moves = .ok g.bare := by
  obtain ⟨initial, found⟩ := Numbering.exists_of_lt_size valid.initial
  refine ⟨initial, (g.locations.find?_eq_some_iff initial g.initial.index).1 found, ?_⟩
  obtain ⟨b, built⟩ := exists_build (Numbering.mem_of_find? found) fun m => listed_of_mem_moves
  obtain ⟨first, resolved, hf, -, hl, ha, hi, -⟩ := build_eq_ok built
  rw [valid.locations] at hf hl
  rw [valid.actions] at ha
  obtain rfl := Option.some.inj (hf.symm.trans found)
  have table := valid.successors_eq small built
  obtain ⟨count, classes⟩ := totals_of_build built
  have first_id : b.initial = g.initial := hi.trans (LocId.ofNat_index g.initial)
  have counted : b.moveCount = g.moveCount := by rw [count, table, valid.moveCount]
  have same : b = g.bare := by
    cases b
    rw [bare, mk.injEq]
    exact ⟨hl, first_id, ha, table, counted, classes⟩
  rw [built, same]

/-- A valid arena with classes is its bare form with the classes attached. -/
theorem observe_eq (valid : g.Valid) (small : g.size ≤ UInt32.size) (h : g.hasClasses) :
    g.bare.observe g.class? = .ok g := by
  obtain ⟨classes, attached⟩ := Option.isSome_iff_exists.1 h
  have enough : classes.toList.length = g.locations.toList.length := by
    rw [Array.length_toList, valid.classes classes attached, size, Numbering.size_eq_length]
  have attach : g.bare.observe g.class? =
      .ok { g.bare with classes := some classes.toList.toArray } := by
    apply observe_eq_ok enough
    rintro ⟨l, c⟩ pair
    obtain ⟨i, hl, hc⟩ := Traversal.mem_zip_iff.1 pair
    have found : g.locations.find? l = some i := by
      rw [Numbering.find?_eq_some_iff, ← Numbering.getElem?_toList]
      exact hl
    have inside : i < UInt32.size := (Numbering.lt_size_of_find? found).trans_le small
    rw [Array.getElem?_toList] at hc
    simp [class?, idOf?, found, attached, LocId.index_ofNat inside, hc]
  rw [attach, Array.toArray_toList, ← attached]
  rfl

theorem observe {classOf : L → Option ObservationClass} {h : Arena L} (valid : g.Valid)
    (attached : g.observe classOf = .ok h) : h.Valid := by
  obtain ⟨classes, each, result⟩ := Traversal.bind_eq_ok.1 attached
  obtain rfl := Except.ok.inj result
  refine ⟨⟨valid.sized, valid.closed⟩, valid.locations, valid.actions, valid.initial,
    valid.increasing, valid.moveCount, ?_⟩
  intro listed same
  obtain rfl := Option.some.inj same
  rw [List.size_toArray, Traversal.length_mapM_ok each]
  exact g.locations.size_eq_length.symm

theorem rebuilds (valid : g.Valid) (small : g.size ≤ UInt32.size) : g.Rebuilds := by
  obtain ⟨initial, found, built⟩ := valid.build_eq small
  refine ⟨initial, found, built, ?_⟩
  split
  case isTrue classed => exact valid.observe_eq small classed
  case isFalse plain =>
    have absent : g.classes = none := by simpa [hasClasses] using plain
    rw [bare, ← absent]

end Valid

end Arena

theorem Snapshot.Sound.valid {s : Snapshot L} (h : s.Sound) : s.arena.Valid where
  sized := h.sized_arena
  closed found := (h.cell?_arena found).1
  locations := Numbering.ofList_toList s.locations
  actions := Numbering.ofList_toList s.actions
  initial := h.initial.trans_eq h.size_arena.symm
  increasing found := (h.cell?_arena found).2
  moveCount := by simp [arena, SuccessorTable.count, entryCount, Function.comp_def]
  classes classes attached := by
    obtain ⟨listed, found, rfl⟩ := Option.map_eq_some_iff.1 attached
    rw [List.size_toArray, h.size_arena, h.classes listed found]

namespace Arena

/-- What a successful reading consists of. -/
theorem ofBytes_eq_ok_iff [Inspect L] [Binary L] {input : List UInt8} {g : Arena L} :
    ofBytes input = .ok g ↔ ∃ s rest, (Binary.decode : Decoder (Snapshot L)).run input =
      .ok (s, rest) ∧ s.Sound ∧ s.arena = g := by
  unfold ofBytes Binary.read
  cases (Binary.decode : Decoder (Snapshot L)).run input with
  | error fault => simp [Except.map]
  | ok read =>
    obtain ⟨s, rest⟩ := read
    simp [Except.map, Snapshot.ofSnapshot_eq_ok_iff]

/-- Whatever a caller can hold is valid. -/
theorem Issued.valid [Inspect L] {g : Arena L} (h : g.Issued) : g.Valid := by
  induction h with
  | built h => exact valid_of_build h
  | restored h =>
    obtain ⟨s, rest, -, sound, rfl⟩ := ofBytes_eq_ok_iff.1 h
    exact sound.valid
  | observed _ attached ih => exact ih.observe attached

open Binary in
/-- Whatever the bytes are, reading an arena comes to an answer. What it gives is rebuilt from its
own parts, and the bytes begin with its form. Numbers, texts, characters and positions can be
locations. -/
theorem ofBytes_rebuilds :
    (∀ {L : Type} [Binary L] [Answering L] (input : List UInt8) (fault : DecodeFault),
      (Binary.read input : Except DecodeFault (Snapshot L)) = .error fault → ¬fault.Fatal) ∧
    (∀ {L : Type} [DecidableEq L] [Hashable L] [Inspect L] [Binary L] [Canonical L]
      {input : List UInt8} {g : Arena L}, ofBytes input = .ok g → g.size < UInt32.size →
        g.Rebuilds ∧ g.toBytes <+: input) ∧
    (Answering Int64 ∧ Canonical Int64) ∧ (Answering String ∧ Canonical String) ∧
      (Answering Char ∧ Canonical Char) ∧
      (Answering (Position Packed) ∧ Canonical (Position Packed)) ∧
      (Answering (Position Listed) ∧ Canonical (Position Listed)) := by
  refine ⟨fun _ _ => not_fatal_of_read, ?_, ⟨inferInstance, inferInstance⟩,
    ⟨inferInstance, inferInstance⟩, ⟨inferInstance, inferInstance⟩,
    ⟨inferInstance, inferInstance⟩, inferInstance, inferInstance⟩
  intro L _ _ _ _ _ input g restored small
  obtain ⟨s, rest, found, sound, rfl⟩ := ofBytes_eq_ok_iff.1 restored
  refine ⟨sound.valid.rebuilds small.le, ?_⟩
  rw [toBytes, sound.snapshot_arena, Canonical.own_form found]
  exact List.prefix_append ..

/-- Two locations with classes. The first one leads to both. -/
def twoNumbers : Snapshot Int64 where
  locations := [7, -7]
  initial := ⟨1⟩
  actions := [⟨0⟩]
  successors := [[[⟨0⟩, ⟨1⟩]], [[]]]
  moveCount := 2
  classes := some [⟨5⟩, ⟨5⟩]

/-- A byte too many is ignored. -/
theorem ofBytes_of_two_numbers :
    ∃ g : Arena Int64, ofBytes (Binary.encode twoNumbers ++ [255]) = .ok g ∧ g.hasClasses ∧
      g.size < UInt32.size ∧ g.Rebuilds ∧ g.toBytes <+: Binary.encode twoNumbers ++ [255] := by
  have sound : twoNumbers.Sound := by decide
  have found : (Binary.decode : Decoder (Snapshot Int64)).run (Binary.encode twoNumbers ++ [255]) =
      .ok (twoNumbers, [255]) := rfl
  have restored : ofBytes (Binary.encode twoNumbers ++ [255]) = .ok twoNumbers.arena :=
    ofBytes_eq_ok_iff.2 ⟨twoNumbers, [255], found, sound, rfl⟩
  have small : twoNumbers.arena.size < UInt32.size := by
    rw [sound.size_arena]
    decide
  exact ⟨twoNumbers.arena, restored, rfl, small, ofBytes_rebuilds.2.1 restored small⟩

end Arena

end RingLock
