import RingLock.Proofs.Safety.Greatest
import Mathlib.Order.CompletePartialOrder

/-!
# The statistics of a solver

One solver answers any number of queries, and its counters have 32 bits. A run of the fixpoint
clears them first, so afterwards they speak of this run and of what was asked for since: the sizes
of the target and of the result, one iteration for every round that took something away and one for
the last round, and one use of the controllable predecessor for every iteration and for every later
query. The solver answers as long as the uses can be counted.
-/
namespace RingLock

variable {L : Type} [DecidableEq L] [Hashable L]

namespace Arena

/-- What is left of a set of ids after some rounds. -/
def remaining (g : Arena L) (s : Set LocId) : ℕ → Set LocId
  | 0 => s
  | k + 1 => g.remaining s k ∩ g.predecessor (g.remaining s k)

/-- The number of rounds that take something away. -/
noncomputable def losses (g : Arena L) (s : Set LocId) : ℕ :=
  {k | g.remaining s (k + 1) ⊂ g.remaining s k}.ncard

variable {g : Arena L} {r : Region} {k : ℕ}

theorem ids_rounds (wf : g.WellFormed) (fits : r.bound = g.size) (small : g.size < UInt32.size)
    (k : ℕ) : (g.rounds r k).ids = g.remaining r.ids k := by
  induction k with
  | zero => rfl
  | succ k ih => rw [ids_rounds_succ wf fits small, ih, remaining]

theorem counted_rounds (counted : r.Counted) (k : ℕ) : (g.rounds r k).Counted := by
  cases k with
  | zero => exact counted
  | succ k =>
    rw [rounds_succ]
    exact g.counted_narrow _

/-- Once the rounds have settled, nothing changes any more. -/
theorem Settles.rounds_add (h : g.Settles r k) (more : ℕ) :
    g.rounds r (k + more) = g.rounds r k := by
  induction more with
  | zero => rfl
  | succ more ih => rw [← Nat.add_assoc, rounds_succ, ih, h.stable]

/-- The rounds that take something away are those before the rounds settle. -/
theorem Settles.shrinks_iff (h : g.Settles r k) (wf : g.WellFormed) (fits : r.bound = g.size)
    (small : g.size < UInt32.size) (counted : r.Counted) (j : ℕ) :
    g.remaining r.ids (j + 1) ⊂ g.remaining r.ids j ↔ j < k := by
  have below : g.remaining r.ids (j + 1) ⊆ g.remaining r.ids j := Set.inter_subset_left
  rw [ssubset_iff_subset_ne, and_iff_right below, ← ids_rounds wf fits small, ← ids_rounds wf fits small]
  constructor
  · intro shrinks
    by_contra late
    obtain ⟨more, rfl⟩ := Nat.exists_eq_add_of_le (Nat.not_lt.1 late)
    rw [Nat.add_assoc, h.rounds_add, h.rounds_add] at shrinks
    exact shrinks rfl
  · intro early same
    have bound (i : ℕ) := bound_rounds g (r := r) (fits ▸ small) i
    have bounds := (bound (j + 1)).trans (bound j).symm
    have bounded : (g.rounds r (j + 1)).bound ≤ UInt32.size := by rw [bound, fits]; exact small.le
    have stuck := Region.eq_of_ids_eq bounds bounded same (counted_rounds counted _)
      (counted_rounds counted _)
    exact h.moving j early (by rw [← rounds_succ, stuck])

theorem Settles.losses_eq (h : g.Settles r k) (wf : g.WellFormed) (fits : r.bound = g.size)
    (small : g.size < UInt32.size) (counted : r.Counted) : g.losses r.ids = k := by
  have early : {j | g.remaining r.ids (j + 1) ⊂ g.remaining r.ids j} = ↑(Finset.range k) := by
    ext j
    simp [h.shrinks_iff wf fits small counted]
  rw [losses, early, Set.ncard_coe_finset, Finset.card_range]

end Arena

namespace Solver

variable {g : Arena L} {stats : Stats}

/-- The statistics after some answers. -/
def after (stats : Stats) (answers : List (Region × Stats)) : Stats :=
  (answers.getLast?.map Prod.snd).getD stats

@[simp] theorem after_nil (stats : Stats) : after stats [] = stats := rfl

@[simp] theorem after_cons (stats : Stats) (answer : Region × Stats)
    (answers : List (Region × Stats)) : after stats (answer :: answers) = after answer.2 answers := by
  cases answers <;> simp [after, List.getLast?_cons]

/-- What a query brings the uses of the controllable predecessor to, counted without a limit. -/
noncomputable def uses (g : Arena L) (before : ℕ) : Query → ℕ
  | .controllable _ => before + 1
  | .winning target => g.losses target.ids + 1

/-- The uses can be counted after every query. -/
def InRange (g : Arena L) (queries : List Query) : Prop :=
  ∀ done, done <+: queries → done.foldl (uses g) 0 < UInt32.size

/-- A target is a set of the arena's ids with the right number. -/
def Query.Fits (g : Arena L) : Query → Prop
  | .controllable _ => True
  | .winning target => target.bound = g.size ∧ target.Counted

/-- What the statistics say of a run of the fixpoint and of the queries since. -/
structure Records (g : Arena L) (target result : Region) (since : ℕ) (stats : Stats) : Prop where
  initialSize : stats.initialSize.toNat = target.ids.ncard
  finalSize : stats.finalSize.toNat = result.ids.ncard
  pruned : stats.pruned = (target.ids \ result.ids).ncard
  iterations : stats.iterations.toNat = g.losses target.ids + 1
  losses : g.losses target.ids ≤ (target.ids \ result.ids).ncard
  predecessorCalls : stats.predecessorCalls.toNat = stats.iterations.toNat + since

/-- The solver answers a query about a target, and what was counted before does not matter. -/
theorem exists_records (wf : g.WellFormed) (small : g.size < UInt32.size - 2) {target : Region}
    (fits : target.bound = g.size) (counted : target.Counted) :
    ∃ w final, (∀ prior, winning? g prior target = some (w, final)) ∧
      Records g target w 0 final := by
  have bounded : g.size < UInt32.size := by omega
  obtain ⟨k, room, settles, drop, run⟩ := exists_winning? wf small fits
  have losses := settles.losses_eq wf fits bounded counted
  have inside := Arena.rounds_subset wf bounded fits k
  have finite := Region.finite_ids (r := g.rounds target k)
    (by rw [Arena.bound_rounds g (fits ▸ bounded), fits]; exact bounded.le)
  have fewer := Set.ncard_sdiff inside finite
  have initial : target.count.toNat = target.ids.ncard := counted
  have final : (g.rounds target k).count.toNat = (g.rounds target k).ids.ncard := settles.counted
  have steps : (UInt32.ofNat (k + 1)).toNat = k + 1 := UInt32.toNat_ofNat_of_lt' room
  rw [Region.excess_of_counted counted, Region.excess_of_counted settles.counted] at drop
  refine ⟨_, _, run, initial, final, ?_, ?_, ?_, rfl⟩
  · rw [Stats.pruned, initial, final, fewer]
  · rw [losses]
    exact steps
  · omega

/-- A query is answered if and only if the uses can be counted, and then they are. -/
theorem answer?_eq (wf : g.WellFormed) (small : g.size < UInt32.size - 2) {query : Query}
    (fits : query.Fits g) (stats : Stats) :
    ((answer? g stats query).isSome ↔ uses g stats.predecessorCalls.toNat query < UInt32.size) ∧
    ∀ answer, answer? g stats query = some answer →
      answer.2.predecessorCalls.toNat = uses g stats.predecessorCalls.toNat query := by
  cases query with
  | controllable target =>
    rw [answer?, controllable?, Stats.countCall?, uses]
    split
    case isTrue room =>
      simp only [Option.map_some, Option.isSome_some, true_iff, Option.some.injEq]
      refine ⟨room, ?_⟩
      rintro answer rfl
      exact Nat.mod_eq_of_lt room
    case isFalse full => simp [full]
  | winning target =>
    obtain ⟨w, final, run, records⟩ := exists_records wf small fits.1 fits.2
    have used : final.predecessorCalls.toNat = g.losses target.ids + 1 := by
      rw [records.predecessorCalls, records.iterations]
    have room := final.predecessorCalls.toNat_lt
    rw [answer?, run]
    simp only [uses, Option.isSome_some, ← used, true_iff, Option.some.injEq]
    exact ⟨room, by rintro answer rfl; rfl⟩

theorem answers?_cons_eq_some {query : Query} {queries : List Query}
    {answers : List (Region × Stats)} :
    answers? g stats (query :: queries) = some answers ↔ ∃ answer rest,
      answer? g stats query = some answer ∧ answers? g answer.2 queries = some rest ∧
        answers = answer :: rest := by
  simp only [answers?, Option.bind_eq_bind, Option.bind_eq_some_iff, Option.some.injEq, pure]
  grind

/-- Queries are answered if and only if the uses can be counted after each of them. -/
theorem answers?_isSome_iff (wf : g.WellFormed) (small : g.size < UInt32.size - 2)
    {queries : List Query} (fit : ∀ query ∈ queries, query.Fits g) (stats : Stats) :
    (answers? g stats queries).isSome ↔
      ∀ done, done <+: queries → done.foldl (uses g) stats.predecessorCalls.toNat < UInt32.size := by
  induction queries generalizing stats with
  | nil => simpa [answers?] using stats.predecessorCalls.toNat_lt
  | cons query queries ih =>
    obtain ⟨first, later⟩ := List.forall_mem_cons.1 fit
    obtain ⟨answered, counts⟩ := answer?_eq wf small first stats
    simp only [Option.isSome_iff_exists, answers?_cons_eq_some, List.prefix_cons_iff] at ih ⊢
    constructor
    · rintro ⟨_, answer, rest, run, more, rfl⟩ done (rfl | ⟨done, rfl, before⟩)
      · exact stats.predecessorCalls.toNat_lt
      · rw [List.foldl_cons, ← counts answer run]
        exact (ih later answer.2).1 ⟨rest, more⟩ done before
    · intro room
      have one := room [query] (.inr ⟨[], rfl, List.nil_prefix⟩)
      obtain ⟨answer, run⟩ := Option.isSome_iff_exists.1 (answered.2 one)
      obtain ⟨rest, more⟩ := (ih later answer.2).2 fun done before => by
        rw [counts answer run]
        exact room (query :: done) (.inr ⟨done, rfl, before⟩)
      exact ⟨_, answer, rest, run, more, rfl⟩

theorem answers?_append_eq_some {earlier later : List Query} {answers : List (Region × Stats)} :
    answers? g stats (earlier ++ later) = some answers ↔ ∃ first rest,
      answers? g stats earlier = some first ∧ answers? g (after stats first) later = some rest ∧
        answers = first ++ rest := by
  induction earlier generalizing stats answers with
  | nil => simp [answers?]
  | cons query earlier ih =>
    simp only [List.cons_append, answers?_cons_eq_some, ih]
    constructor
    · rintro ⟨answer, _, run, ⟨first, rest, before, more, rfl⟩, rfl⟩
      exact ⟨_, rest, ⟨answer, first, run, before, rfl⟩, by rwa [after_cons], rfl⟩
    · rintro ⟨_, rest, ⟨answer, first, run, before, rfl⟩, more, rfl⟩
      rw [after_cons] at more
      exact ⟨answer, _, run, ⟨first, rest, before, more, rfl⟩, rfl⟩

theorem after_append (first rest : List (Region × Stats)) :
    after stats (first ++ rest) = after (after stats first) rest := by
  induction first generalizing stats with
  | nil => rfl
  | cons answer first ih => rw [List.cons_append, after_cons, after_cons, ih]

theorem length_answers? {queries : List Query} {answers : List (Region × Stats)}
    (h : answers? g stats queries = some answers) : answers.length = queries.length := by
  induction queries generalizing stats answers with
  | nil =>
    obtain rfl := Option.some.inj h
    rfl
  | cons query queries ih =>
    obtain ⟨answer, rest, -, more, rfl⟩ := answers?_cons_eq_some.1 h
    rw [List.length_cons, List.length_cons, ih more]

/-- So many more uses of the controllable predecessor. -/
def withUses (stats : Stats) (more : ℕ) : Stats :=
  { stats with predecessorCalls := stats.predecessorCalls + UInt32.ofNat more }

/-- Uses of the controllable predecessor are counted, and nothing else changes. -/
theorem after_controllable {later : List Region} {answers : List (Region × Stats)}
    (h : answers? g stats (later.map .controllable) = some answers) :
    after stats answers = withUses stats later.length ∧
    (after stats answers).predecessorCalls.toNat =
      stats.predecessorCalls.toNat + later.length := by
  induction later generalizing stats answers with
  | nil =>
    obtain rfl := Option.some.inj h
    simp [withUses]
  | cons target later ih =>
    obtain ⟨answer, rest, run, more, rfl⟩ := answers?_cons_eq_some.1 h
    obtain ⟨next, counted, rfl⟩ := Option.map_eq_some_iff.1 run
    obtain ⟨ends, total⟩ := ih more
    rw [Stats.countCall?] at counted
    split at counted
    case isFalse => contradiction
    case isTrue room =>
      obtain rfl := Option.some.inj counted
      have one_more : (stats.predecessorCalls + 1).toNat = stats.predecessorCalls.toNat + 1 :=
        Nat.mod_eq_of_lt room
      rw [after_cons, List.length_cons]
      constructor
      · rw [ends, withUses, withUses, ← one_add_ofNat]
      · rw [total]
        simp only [one_more]
        omega

/-- After the last run of the fixpoint the statistics are those of this run, with the uses that were
counted since. They do not depend on what was asked for before. -/
theorem statistics_of_last_run [Inspect L] (issued : g.Issued) (small : g.size < UInt32.size - 2)
    {target : Region} (fits : target.bound = g.size) (counted : target.Counted) :
    ∃ w, g.winningRegion? target = some w ∧
      (∀ r : Region, (g.controllable r).ids = g.predecessor r.ids) ∧
      ∀ since : List Region, ∃ final, ∀ earlier : List Query,
        (∀ query ∈ earlier, query.Fits g) →
        let queries := earlier ++ .winning target :: since.map .controllable
        ((answers? g .zero queries).isSome ↔ InRange g queries) ∧
        ∀ answers, answers? g .zero queries = some answers →
          answers[earlier.length]?.map Prod.fst = some w ∧ after .zero answers = final ∧
          Records g target w since.length final := by
  have wf := issued.wellFormed
  obtain ⟨w, own, run, records⟩ := exists_records wf small fits counted
  refine ⟨w, by rw [Arena.winningRegion?, run]; rfl, fun r => ?_, fun since => ?_⟩
  · ext id
    exact Arena.contains_controllable wf (by omega) r id
  · refine ⟨withUses own since.length, fun earlier fit =>
      ⟨answers?_isSome_iff wf small ?_ .zero, fun answers answered => ?_⟩⟩
    · simp only [List.forall_mem_append, List.forall_mem_cons, List.forall_mem_map]
      exact ⟨fit, ⟨fits, counted⟩, fun _ _ => trivial⟩
    · obtain ⟨first, _, before, more, rfl⟩ := answers?_append_eq_some.1 answered
      obtain ⟨answer, rest, last, calls, rfl⟩ := answers?_cons_eq_some.1 more
      obtain rfl : (w, own) = answer := Option.some.inj ((run _).symm.trans last)
      obtain ⟨ends, total⟩ := after_controllable calls
      have final : after .zero (first ++ (w, own) :: rest) = withUses own since.length := by
        rw [after_append, after_cons, ends]
      rw [ends, records.predecessorCalls] at total
      refine ⟨?_, final, { records with predecessorCalls := total }⟩
      rw [← length_answers? before]
      simp

/-- A target of two locations is solved again after other queries, and then its controllable
predecessor is asked for. -/
theorem statistics_of_four_queries : ∃ g : Arena UInt8, g.Issued ∧ g.size = 2 ∧
    ∃ answers, let target : Region := ⟨#[true, true], 2⟩
      answers? g .zero [.controllable target, .winning target, .winning target,
        .controllable target] = some answers ∧ (after .zero answers).initialSize.toNat = 2 ∧
      (after .zero answers).predecessorCalls.toNat =
        (after .zero answers).iterations.toNat + 1 := by
  obtain ⟨g, issued, two, -⟩ := Arena.exists_two_locations
  let target : Region := ⟨#[true, true], 2⟩
  have small : g.size < UInt32.size - 2 := by rw [two]; decide
  have fits : target.bound = g.size := two.symm
  have both : target.ids.ncard = 2 := Region.ncard_ids (by decide)
  have counted : target.Counted := both.symm
  -- Few rounds take something away from two locations, so the uses stay in range.
  obtain ⟨_, _, -, records⟩ := exists_records issued.wellFormed small fits counted
  have few := records.losses.trans (Set.ncard_le_ncard Set.sdiff_subset
    (Region.finite_ids (by decide)))
  have range : InRange g [.controllable target, .winning target, .winning target,
      .controllable target] := by
    rintro done before
    simp only [List.prefix_cons_iff, List.prefix_nil] at before
    rcases before with rfl | ⟨_, rfl, rfl | ⟨_, rfl, rfl | ⟨_, rfl, rfl | ⟨_, rfl, rfl⟩⟩⟩⟩ <;>
      simp [uses, UInt32.size] <;> omega
  obtain ⟨w, -, -, statistics⟩ := statistics_of_last_run issued small fits counted
  obtain ⟨final, history⟩ := statistics [target]
  obtain ⟨answered, exact⟩ := history [.controllable target, .winning target]
    (by simpa [Query.Fits] using ⟨fits, counted⟩)
  obtain ⟨answers, run⟩ := Option.isSome_iff_exists.1 (answered.2 range)
  obtain ⟨-, same, final⟩ := exact answers run
  exact ⟨g, issued, two, answers, run, same ▸ final.initialSize.trans both,
    same ▸ final.predecessorCalls⟩

end Solver

end RingLock
