import RingLock.Proofs.Puzzle.Relation
import RingLock.Proofs.Session.Runs

/-!
# Turns as moves

What a turn of a session makes of its ring is a move of the many-color lock. The adversary turns
the ring, and the player then chooses a hand and cycles its colors. In the lock the hand is chosen
first, so the position of a turn pairs the ring before it with the hand that is chosen in it.
Nothing outside the hand changes before the turn is ended, whatever is called, so the move is there
as soon as the hand is full, and turns that follow each other are moves along a path.
-/
namespace RingLock.Session

open Coloring Puzzle

variable {s t u : Session} {call : Call} {calls : List Call} {reply : Reply}
  {trail : List (Session × Reply)} {c : Config}

/-- A session that some calls lead to. -/
inductive Reached : Session → Prop
  | start {s : Session} (started : s.Started) : Reached s
  | step {s t : Session} {call : Call} {reply : Reply} (reached : Reached s)
      (step : s.step? call = some (t, reply)) : Reached t

/-- A session with the sizes of a configuration. -/
structure Fits (s : Session) (c : Config) : Prop where
  size : s.ring.size = c.holes.toNat
  palette : s.ring.palette.toNat = c.colors.toNat
  handSize : s.handSize = c.hand.toNat

/-- The chosen holes, increasing. -/
def sortedHand (s : Session) : Hand := ⟨s.chosen.mergeSort⟩

/-- The adversary turns the ring of a session by an amount. In a later session of the same turn the
hand is full. -/
inductive Turn (s : Session) (amount : ℕ) : Session → Prop
  | filled {u : Session} {calls : List Call} {trail : List (Session × Reply)}
    (answer : s.step? .respond = some (u, .turned (some amount))) (unended : .commit ∉ calls)
    (run : u.run? calls = some trail) (full : u.handSize ≤ (u.after trail).chosen.length) :
    Turn s amount (u.after trail)

/-- A turn as it was played: where the adversary was asked, the amount of its answer, and a later
session of the turn. -/
structure Round where
  before : Session
  amount : ℕ
  later : Session

/-- The ring before a turn, with the hand that is chosen in it. -/
def Round.position (r : Round) : Position Listed := ⟨r.before.ring.toListed, r.later.sortedHand⟩

/-- The end of one turn is the beginning of the next. -/
def Round.Precedes (r next : Round) : Prop :=
  r.later.step? .commit = some (next.before, .accepted true)

theorem Reached.consistent (reached : s.Reached) : s.Consistent := by
  induction reached with
  | start started => exact started.consistent
  | step _ step ih => exact ih.step (step?_eq_some_iff.1 step)

theorem Reached.run (reached : s.Reached) (run : s.run? calls = some trail) :
    (s.after trail).Reached :=
  run?_induction (P := fun _ t => t.Reached) reached
    (fun _ _ _ _ _ _ reached becomes => reached.step (step?_eq_some_iff.2 becomes)) run

theorem Fits.of_sameSizes (fits : s.Fits c) (same : s.SameSizes t) : t.Fits c := by
  constructor
  case size => rw [same.size, fits.size]
  case palette => rw [same.palette, fits.palette]
  case handSize => rw [same.handSize, fits.handSize]

/-- The session of a configuration has its sizes. -/
theorem fits_ofConfig (built : (ofConfig c).run = some (.ok s)) : s.Fits c := by
  obtain ⟨checked, ring, adversary, rfl, -, size, palette⟩ := ofConfig_eq_ok built
  obtain ⟨-, -, -, two, few⟩ := Config.bounds_of_check checked
  constructor
  case size => rw [start, settle_ring, size]
  case palette =>
    rw [start, settle_ring, palette, Ring.toNat_max_one, UInt64.toNat_toUInt8]
    omega
  case handSize => rw [start, settle_handSize]

/-- Sorting the chosen holes makes them a hand of the lock. -/
theorem Consistent.sortedHand_fills (consistent : s.Consistent)
    (full : s.chosen.length = s.handSize) : s.sortedHand.Fills s.ring.size s.handSize := by
  rw [← full]
  exact Hand.fills_mergeSort consistent.distinct fun x member =>
    (Nat.lt_min.1 (consistent.inside x member)).1

/-- A session of the turn that begins with another, before the turn is ended. -/
structure SameTurn (u s : Session) : Prop extends Consistent s where
  unasked : s.phase ≠ .adversary
  /-- The holes that are not chosen keep their colors. -/
  kept : ∀ i, UInt8.ofNat i ∉ s.chosen → s.ring.color? i = u.ring.color? i

/-- Only the end of a turn leads out of it. -/
theorem SameTurn.step (same : SameTurn u s) (unended : call ≠ .commit)
    (becomes : s.Becomes call reply t) : SameTurn u t := by
  have consistent := same.toConsistent.step becomes
  cases becomes with
  | refused => exact same
  | @selected hole =>
    have unasked : (if s.handSize ≤ s.chosen.length + 1 then Phase.modify else .select) ≠
        .adversary := by
      split <;> simp
    exact ⟨consistent, unasked, fun i free =>
      same.kept i fun held => free (List.mem_append_left _ held)⟩
  | @cycled hole ring recolorable cycles =>
    obtain ⟨next, advances, -, advanced⟩ := same.cycles recolorable
    obtain rfl := Option.some.inj (cycles.symm.trans advances)
    constructor
    case toConsistent => exact consistent
    case unasked =>
      rw [settle_phase]
      split
      · simp
      · exact same.unasked
    case kept =>
      intro i free
      rw [settle_chosen] at free
      have other : i ≠ hole := fun same_hole => free (same_hole ▸ recolorable.2.2)
      rw [settle_ring, advanced.kept i other]
      exact same.kept i free
  | committed => exact absurd rfl unended
  | turned awaited => exact absurd awaited same.unasked

theorem SameTurn.run (consistent : u.Consistent) (unasked : u.phase ≠ .adversary)
    (unended : .commit ∉ calls) (run : u.run? calls = some trail) :
    SameTurn u (u.after trail) := by
  refine run?_induction (P := fun _ => SameTurn u) ⟨consistent, unasked, fun _ _ => rfl⟩ ?_ run
  intro _ s call reply t called same becomes
  exact same.step (fun commit => unended (commit ▸ called)) becomes

/-- The adversary is asked while no hole is chosen, and its answer is the turn of the ring. -/
theorem Consistent.answer (consistent : s.Consistent) {amount : ℕ}
    (answer : s.step? .respond = some (u, .turned (some amount))) :
    s.phase ≠ .victory ∧ u.phase ≠ .adversary ∧ amount < s.ring.size ∧
      u.ring = s.ring.rotate amount := by
  have becomes := step?_eq_some_iff.1 answer
  obtain ⟨-, bounded, -⟩ := (consistent.effect becomes).turned amount rfl
  cases becomes with
  | turned awaited draws counted =>
    refine ⟨by simp [awaited], ?_, bounded, settle_ring _⟩
    rw [settle_phase]
    split <;> simp

/-- What a turn makes of a session. -/
structure Carries (s : Session) (amount : ℕ) (t : Session) : Prop extends SameSizes s t where
  unfinished : s.phase ≠ .victory
  bounded : amount < s.ring.size
  reached : t.Reached
  full : s.handSize ≤ t.chosen.length
  /-- A hole that is not chosen shows the color that the amount brings there. -/
  carried : ∀ i < s.ring.size, UInt8.ofNat i ∉ t.chosen →
    t.ring.color? i = s.ring.color? ((i + (s.ring.size - amount)) % s.ring.size)

theorem Turn.carries (reached : s.Reached) {amount : ℕ} (turn : s.Turn amount t) :
    s.Carries amount t := by
  cases turn with
  | @filled u calls trail answer unended run full =>
    obtain ⟨unfinished, unasked, bounded, turned⟩ := reached.consistent.answer answer
    have sizes := reached.consistent.sameSizes (step?_eq_some_iff.1 answer)
    have reached_u : u.Reached := reached.step answer
    have same := SameTurn.run reached_u.consistent unasked unended run
    constructor
    case toSameSizes => exact sizes.trans (reached_u.consistent.run run).toSameSizes
    case unfinished => exact unfinished
    case bounded => exact bounded
    case reached => exact reached_u.run run
    case full => exact sizes.handSize ▸ full
    case carried =>
      intro i inside free
      rw [same.kept i free, turned, Ring.color?_rotate bounded inside]

/-- The coloring of a session that fits a lock is one of its colorings. -/
theorem Fits.proper (fits : s.Fits c) (consistent : s.Consistent) :
    s.ring.toListed.colors.length = c.holes.toNat ∧
      ∀ x ∈ s.ring.toListed.colors, x.toNat < c.colors.toNat := by
  refine ⟨fits.size, fun x shown => ?_⟩
  rw [← fits.palette]
  exact UInt8.lt_iff_toNat_lt.1 (consistent.sound.2 x shown)

/-- The hand of a turn is one of the full hands of the lock. -/
theorem Turn.sortedHand_fills (checked : c.check = .ok ()) (fits : s.Fits c) (reached : s.Reached)
    {amount : ℕ} (turn : s.Turn amount t) :
    t.sortedHand.Fills c.holes.toNat c.hand.toNat := by
  have carries := turn.carries reached
  have fits_t := fits.of_sameSizes carries.toSameSizes
  obtain ⟨one, -, -, -, -⟩ := Config.bounds_of_check checked
  have most := carries.reached.consistent.filled.length_le
  have least := carries.full
  rw [fits_t.handSize] at most
  rw [fits.handSize] at least
  have full : t.chosen.length = t.handSize := by
    rw [fits_t.handSize]
    omega
  rw [← fits_t.size, ← fits_t.handSize]
  exact carries.reached.consistent.sortedHand_fills full

variable {p : Puzzle Listed} {steps : List (List (Step Listed))}

/-- A turn is a move of the lock, whatever hand comes next. -/
theorem Turn.hasMove
    (model : Model c (manyColorSteps? c) (Hand.options c.holes.toNat c.hand.toNat))
    (expanded : p.Expanded c (manyColorSteps? c) steps) (small : p.arena.size ≤ UInt32.size)
    (fits : s.Fits c) (reached : s.Reached) {amount : ℕ} (turn : s.Turn amount t) {next : Hand}
    (option : next ∈ Hand.options c.holes.toNat c.hand.toNat) :
    p.arena.hasMove ⟨s.ring.toListed, t.sortedHand⟩ (.ofNat amount) ⟨t.ring.toListed, next⟩ := by
  obtain ⟨-, -, short, -, -⟩ := Config.bounds_of_check model.checked
  have carries := turn.carries reached
  have fits_t := fits.of_sameSizes carries.toSameSizes
  have bounded : amount < c.holes.toNat := fits.size ▸ carries.bounded
  have value : (Action.ofNat amount).amount = amount :=
    Action.amount_ofNat ((bounded.trans_le short).trans (by decide))
  have mixed : ¬OneColor s.ring.toListed c.holes.toNat := by
    intro one_color
    apply reached.consistent.mixed carries.unfinished
    rw [← fits.size] at one_color
    exact (Listed.neighboursAgree_iff s.ring.colors).2 one_color
  have carried : Carried s.ring.toListed t.ring.toListed t.sortedHand c.holes.toNat amount := by
    intro i inside free
    have free : UInt8.ofNat i ∉ t.chosen := fun held => free (List.mem_mergeSort.2 held)
    rw [← fits.size] at inside ⊢
    exact carries.carried i inside free
  rw [hasMove_iff_of_manyColor model expanded small, value]
  exact ⟨bounded, fits.proper reached.consistent,
    .inl (turn.sortedHand_fills model.checked fits reached),
    (Hand.mem_options_iff_fills (by omega)).1 option,
    .inr ⟨mixed, fits_t.proper carries.reached.consistent, carried⟩⟩

/-- The next turn begins where a turn is ended, on the same ring. -/
theorem Round.Precedes.begins {r next : Round} (precedes : r.Precedes next)
    (reached : r.later.Reached) (fits : r.later.Fits c) :
    next.before.Reached ∧ next.before.Fits c ∧ next.before.ring = r.later.ring := by
  have becomes := step?_eq_some_iff.1 precedes
  have kept := (reached.consistent.effect becomes).kept
  exact ⟨reached.step precedes, fits.of_sameSizes (reached.consistent.sameSizes becomes),
    by simpa using kept⟩

/-- Turns that follow each other are moves along a path, which goes on to any hand. -/
theorem rounds_hasMove
    (model : Model c (manyColorSteps? c) (Hand.options c.holes.toNat c.hand.toNat))
    (expanded : p.Expanded c (manyColorSteps? c) steps) (small : p.arena.size ≤ UInt32.size)
    {first : Round} {rounds : List Round} (reached : first.before.Reached)
    (fits : first.before.Fits c) (turns : ∀ r ∈ first :: rounds, r.before.Turn r.amount r.later)
    (chain : (first :: rounds).IsChain Round.Precedes) :
    (first :: rounds).IsChain (fun r next =>
        p.arena.hasMove r.position (.ofNat r.amount) next.position) ∧
      ∀ last ∈ (first :: rounds).getLast?, ∀ next ∈ Hand.options c.holes.toNat c.hand.toNat,
        p.arena.hasMove last.position (.ofNat last.amount) ⟨last.later.ring.toListed, next⟩ := by
  induction rounds generalizing first with
  | nil =>
    refine ⟨.singleton first, fun last same next option => ?_⟩
    obtain rfl : first = last := Option.some.inj same
    exact (turns first List.mem_cons_self).hasMove model expanded small fits reached option
  | cons second rounds ih =>
    obtain ⟨precedes, chain⟩ := List.isChain_cons_cons.1 chain
    obtain ⟨turn, turns⟩ := List.forall_mem_cons.1 turns
    have carries := turn.carries reached
    obtain ⟨reached', fits', same⟩ :=
      precedes.begins carries.reached (fits.of_sameSizes carries.toSameSizes)
    have hand : second.later.sortedHand ∈ Hand.options c.holes.toNat c.hand.toNat := by
      obtain ⟨-, -, short, -, -⟩ := Config.bounds_of_check model.checked
      have fills := (turns second List.mem_cons_self).sortedHand_fills model.checked fits' reached'
      exact (Hand.mem_options_iff_fills (by omega)).2 (.inl fills)
    have move : p.arena.hasMove first.position (.ofNat first.amount) second.position := by
      rw [Round.position, Round.position, same]
      exact turn.hasMove model expanded small fits reached hand
    obtain ⟨path, goes_on⟩ := ih reached' fits' turns chain
    exact ⟨.cons_cons move path, by rwa [List.getLast?_cons_cons]⟩

/-- For a checked configuration whose positions are within the range of location ids, every session
of its sizes plays moves of its many-color lock. A turn leads from the ring before it, with the hand
chosen in it, to the ring that it has made and any next hand, at every point at which the hand is
full and the turn not ended. Turns that follow each other make a path. All sessions of the
configuration have its sizes. -/
theorem turns_are_moves (c : Config) (checked : c.check = .ok ())
    (fits : c.colors.toNat ^ c.holes.toNat * (c.holes.toNat.choose c.hand.toNat + 1) <
      UInt32.size) :
    ((initial? c : Option (Option (Position Listed))).isSome →
      ∃ p, (manyColor c).run = some (.ok p)) ∧
    (∀ s₀ calls trail, (ofConfig c).run = some (.ok s₀) → s₀.run? calls = some trail →
      (s₀.after trail).Reached ∧ (s₀.after trail).Fits c) ∧
    ∀ p, (manyColor c).run = some (.ok p) →
      (∀ (s t : Session) (amount : ℕ), s.Reached → s.Fits c → s.Turn amount t →
        ∀ next ∈ Hand.options c.holes.toNat c.hand.toNat,
          p.arena.hasMove ⟨s.ring.toListed, t.sortedHand⟩ (.ofNat amount)
            ⟨t.ring.toListed, next⟩) ∧
      ∀ (first : Round) (rounds : List Round), first.before.Reached → first.before.Fits c →
        (∀ r ∈ first :: rounds, r.before.Turn r.amount r.later) →
        (first :: rounds).IsChain Round.Precedes →
        (first :: rounds).IsChain (fun r next =>
          p.arena.hasMove r.position (.ofNat r.amount) next.position) ∧
        ∀ last ∈ (first :: rounds).getLast?, ∀ next ∈ Hand.options c.holes.toNat c.hand.toNat,
          p.arena.hasMove last.position (.ofNat last.amount)
            ⟨last.later.ring.toListed, next⟩ := by
  refine ⟨exists_manyColor checked, fun s₀ calls trail built run => ?_, fun p built => ?_⟩
  · have reached : s₀.Reached := .start (.drawn built)
    have same := (reached.consistent.run run).toSameSizes
    exact ⟨reached.run run, (fits_ofConfig built).of_sameSizes same⟩
  · obtain ⟨model, steps, expanded⟩ := expanded_manyColor built
    have small : p.arena.size ≤ UInt32.size := ((expanded.size_le model.lawful).trans_lt fits).le
    constructor
    · intro s t amount reached fits turn next option
      exact turn.hasMove model expanded small fits reached option
    · intro first rounds reached fits turns chain
      exact rounds_hasMove model expanded small reached fits turns chain

/-- Calls that are played through make a turn. -/
theorem Turn.of_replay {amount : ℕ} (unended : .commit ∉ calls)
    (replay : ∃ cell, cell ∈ s.step? .respond ∧ cell.2 = .turned (some amount) ∧
      ∃ trail, trail ∈ cell.1.run? calls ∧ cell.1.after trail = t ∧
        cell.1.handSize ≤ t.chosen.length) : s.Turn amount t := by
  obtain ⟨⟨u, reply⟩, answer, turned, trail, run, same, full⟩ := replay
  obtain rfl : reply = .turned (some amount) := turned
  subst same
  exact .filled answer unended run full

/-- A session on four holes with three colors and a hand of two. -/
def fourHoles (phase : Phase) (colors chosen : List UInt8) (position : BitVec 68)
    (rounds : UInt32) : Session :=
  ⟨⟨colors, 3⟩, phase, 2, chosen, ⟨3, position, 0⟩, rounds⟩

def openingRound : Round :=
  ⟨fourHoles .adversary [0, 1, 2, 0] [] 0 0, 2, fourHoles .modify [2, 1, 0, 2] [3, 1] 2 1⟩

def secondRound : Round :=
  ⟨fourHoles .adversary [2, 1, 0, 2] [] 2 1, 0, fourHoles .modify [2, 1, 1, 2] [2, 0] 4 2⟩

set_option maxRecDepth 10000 in
/-- Two turns on four holes, with the holes chosen out of order and some calls refused, are two
moves of the lock that follow each other. -/
theorem moves_of_four_holes : ∃ p, (manyColor (.manyColor 4 2 3)).run = some (.ok p) ∧
    p.arena.hasMove ⟨⟨[0, 1, 2, 0]⟩, ⟨[1, 3]⟩⟩ (.ofNat 2) ⟨⟨[2, 1, 0, 2]⟩, ⟨[0, 2]⟩⟩ ∧
    p.arena.hasMove ⟨⟨[2, 1, 0, 2]⟩, ⟨[0, 2]⟩⟩ (.ofNat 0) ⟨⟨[2, 1, 1, 2]⟩, .empty⟩ := by
  obtain ⟨built, -, moves⟩ := turns_are_moves (.manyColor 4 2 3) (by decide) (by decide)
  obtain ⟨p, run⟩ := built (by decide +kernel)
  have reached : openingRound.before.Reached := by
    have begun : (fourHoles .select [0, 1, 2, 0] [] 0 0).Reached :=
      .start (.known (show Ring.Sound ⟨[0, 1, 2, 0], 3⟩ by decide) 2 (.ofSeed 3))
    obtain ⟨trail, played, same⟩ : ∃ trail, trail ∈ (fourHoles .select [0, 1, 2, 0] [] 0 0).run?
        [.select 0, .select 1, .commit] ∧
        (fourHoles .select [0, 1, 2, 0] [] 0 0).after trail = openingRound.before := by
      decide +kernel
    exact same ▸ begun.run played
  have opening : openingRound.before.Turn openingRound.amount openingRound.later :=
    .of_replay (show .commit ∉ [Call.select 3, .select 3, .select 1, .cycle 0, .cycle 1, .cycle 3]
      by decide) (by decide +kernel)
  have second : secondRound.before.Turn secondRound.amount secondRound.later :=
    .of_replay (show .commit ∉ [Call.select 2, .select 0, .cycle 2] by decide) (by decide +kernel)
  have precedes : openingRound.Precedes secondRound := by
    unfold Round.Precedes
    decide +kernel
  obtain ⟨path, goes_on⟩ := (moves p run).2 openingRound [secondRound] reached ⟨rfl, rfl, rfl⟩
    (by simp [opening, second]) (.cons_cons precedes (.singleton secondRound))
  have move := (List.isChain_cons_cons.1 path).1
  have last := goes_on secondRound rfl .empty (by decide)
  have hand : openingRound.position.hand = ⟨[1, 3]⟩ := by
    simp [openingRound, Round.position, sortedHand, fourHoles, List.mergeSort]
  have next_hand : secondRound.position.hand = ⟨[0, 2]⟩ := by
    simp [secondRound, Round.position, sortedHand, fourHoles, List.mergeSort]
  refine ⟨p, run, ?_, ?_⟩
  · rw [← hand, ← next_hand]
    exact move
  · rw [← next_hand]
    exact last

end RingLock.Session
