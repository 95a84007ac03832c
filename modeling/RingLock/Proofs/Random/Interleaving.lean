import Mathlib.Data.Nat.ModEq
import RingLock.Proofs.Random.Fork
import RingLock.Proofs.Random.Saving

/-!
# Draws and forks in turn

A generator is asked for draws and for children in any order. The draws do not see the forks, and
the forks move no position: without its forks a run has the same draws and ends at the same place of
the stream. The children do not see the draws: each of them starts the stream of a seed that depends
on the seed of its parent and on its rank alone. The distance between the seeds of two ranks is the
distance of the ranks, times an odd number. So no two ranks have one seed, and rank 0 has that of
the parent.
-/
namespace RingLock.Generator

/-- Whether a call asks for a child. -/
def Call.isFork : Call → Bool
  | .fork => true
  | _ => false

/-- The child that a reply brings. -/
def Reply.child? : Reply → Option Generator
  | .child g => some g
  | _ => none

/-- The replies to calls, one after the other, and the generator after them. -/
def run? (g : Generator) : List Call → Option (List Reply × Generator)
  | [] => some ([], g)
  | call :: calls => (g.ask? call).bind fun (reply, h) =>
    (h.run? calls).map fun (replies, k) => (reply :: replies, k)

theorem run?_cons {g h : Generator} {call : Call} {reply : Reply}
    (replied : g.ask? call = some (reply, h)) (calls : List Call) :
    g.run? (call :: calls) = (h.run? calls).map fun (replies, k) => (reply :: replies, k) := by
  rw [run?, replied]
  rfl

/-- Every call but a fork is a draw. -/
theorem isDraw_ask? {call : Call} (draws : call.isFork = false) : IsDraw (ask? · call) := by
  cases call with
  | between low high => exact (isDraw_between? low high).map _
  | color palette => exact (isDraw_color? palette).map _
  | choose xs => exact (isDraw_choose? xs).map _
  | fork => contradiction

theorem child?_of_ask? {call : Call} (draws : call.isFork = false) {g h : Generator} {reply : Reply}
    (replied : g.ask? call = some (reply, h)) : reply.child? = none := by
  cases call with
  | fork => contradiction
  | between | color | choose =>
    obtain ⟨drawn, -, same⟩ := Option.map_eq_some_iff.1 replied
    obtain ⟨rfl, -⟩ := Prod.mk.inj same
    rfl

/-- A run without forks is a draw. -/
theorem isDraw_run? {calls : List Call} (draws : ∀ call ∈ calls, call.isFork = false) :
    IsDraw (run? · calls) := by
  induction calls with
  | nil => exact .pure []
  | cons call calls ih =>
    obtain ⟨first, later⟩ := List.forall_mem_cons.1 draws
    exact (isDraw_ask? first).bind fun reply => (ih later).map (reply :: ·)

/-- The seed of the child of a rank. -/
def rankSeed (seed rank : ℕ) : ℕ := (seed + rank * 0x9e3779b97f4a7c15) % 2 ^ 64

/-- The child of a rank: the first child of a generator without children has rank 1. -/
def child (g : Generator) (rank : ℕ) : Generator := ofSeed (.ofNat (rankSeed g.seed.toNat rank))

theorem child_of_seed {g h : Generator} (same : h.seed = g.seed) : h.child = g.child := by
  funext rank
  rw [child, child, same]

theorem rankSeed_lt (seed rank : ℕ) : rankSeed seed rank < 2 ^ 64 := Nat.mod_lt _ (by decide)

theorem rankSeed_zero {seed : ℕ} (h : seed < 2 ^ 64) : rankSeed seed 0 = seed := by
  rw [rankSeed, Nat.zero_mul, Nat.add_zero, Nat.mod_eq_of_lt h]

/-- The factor of the rank is odd, so it can be cancelled modulo a power of two. -/
theorem rankSeed_injective {seed i j : ℕ} (hi : i < 2 ^ 64) (hj : j < 2 ^ 64)
    (same : rankSeed seed i = rankSeed seed j) : i = j := by
  have odd : Nat.gcd (2 ^ 64) 0x9e3779b97f4a7c15 = 1 := Nat.Coprime.pow_left 64 (by decide)
  have multiples := Nat.ModEq.add_left_cancel' seed same
  exact (Nat.ModEq.cancel_right_of_coprime odd multiples).eq_of_lt_of_lt hi hj

theorem child_seed_toNat (g : Generator) (rank : ℕ) :
    (g.child rank).seed.toNat = rankSeed g.seed.toNat rank :=
  UInt64.toNat_ofNat_of_lt' (rankSeed_lt ..)

/-- No two of the ranks from 1 on have one seed, and none has the seed of the parent. -/
theorem nodup_seeds (g : Generator) {first count : ℕ} (room : first + count < 2 ^ 64) :
    (g.seed :: ((List.range' (first + 1) count).map g.child).map Generator.seed).Nodup := by
  have ranks : (0 :: List.range' (first + 1) count).Nodup :=
    List.nodup_cons.2 ⟨by simp [List.mem_range'_1], List.nodup_range'⟩
  have bounded : ∀ rank ∈ 0 :: List.range' (first + 1) count, rank < 2 ^ 64 := by
    refine List.forall_mem_cons.2 ⟨by decide, fun rank among => ?_⟩
    have bounds := List.mem_range'_1.1 among
    omega
  have seeds : g.seed :: ((List.range' (first + 1) count).map g.child).map Generator.seed =
      (0 :: List.range' (first + 1) count).map fun rank => (g.child rank).seed := by
    have parent : (g.child 0).seed = g.seed := by
      rw [← UInt64.toNat_inj, child_seed_toNat, rankSeed_zero g.seed.toNat_lt]
    rw [List.map_cons, parent, List.map_map]
    rfl
  rw [seeds]
  refine ranks.map_on fun i hi j hj same => ?_
  have same_seed : rankSeed g.seed.toNat i = rankSeed g.seed.toNat j := by
    rw [← child_seed_toNat, same, child_seed_toNat]
  exact rankSeed_injective (bounded i hi) (bounded j hj) same_seed

/-- A generator with fewer than `2 ^ 64 - 1` children has a next one. -/
theorem fork?_eq_some {g : Generator} (room : g.forks.toNat + 1 < 2 ^ 64) :
    g.fork? = some (g.child (g.forks.toNat + 1), g.withForks (g.forks + 1)) := by
  have seed : g.seed + (g.forks + 1) * forkStride =
      .ofNat (rankSeed g.seed.toNat (g.forks.toNat + 1)) := by
    rw [← UInt64.toNat_inj, UInt64.toNat_ofNat_of_lt' (rankSeed_lt ..), rankSeed]
    simp [forkStride, Nat.add_mod, Nat.mul_mod]
  rw [fork?, if_pos (show _ < UInt64.size from room)]
  change some (ofSeed (g.seed + (g.forks + 1) * forkStride), _) = _
  rw [seed]
  rfl

theorem fork?_eq_none {g : Generator} (full : 2 ^ 64 ≤ g.forks.toNat + 1) : g.fork? = none :=
  if_neg (Nat.not_lt.2 full)

theorem forks_succ {g : Generator} (room : g.forks.toNat + 1 < 2 ^ 64) :
    (g.forks + 1).toNat = g.forks.toNat + 1 := by
  rw [UInt64.toNat_add]
  exact Nat.mod_eq_of_lt room

theorem ask?_fork {g : Generator} (room : g.forks.toNat + 1 < 2 ^ 64) :
    g.ask? .fork =
      some (.child (g.child (g.forks.toNat + 1)), g.withForks (g.forks + 1)) := by
  rw [ask?, fork?_eq_some room]
  rfl

theorem Call.eq_fork {call : Call} (asked : call.isFork) : call = .fork := by
  cases call with
  | fork => rfl
  | between | color | choose => contradiction

/-- The forks of a run can be left out: what is drawn and where the stream stands do not change. -/
theorem run?_filter {g : Generator} {calls : List Call}
    (room : g.forks.toNat + calls.countP Call.isFork < 2 ^ 64) :
    g.run? (calls.filter (!·.isFork)) = (g.run? calls).map fun (replies, h) =>
      (replies.filter (·.child?.isNone), h.withForks g.forks) := by
  induction calls generalizing g with
  | nil => rfl
  | cons call calls ih =>
    cases asked : call.isFork with
    | false =>
      rw [List.countP_cons_of_neg (by simp [asked])] at room
      rw [List.filter_cons_of_pos (by simp [asked])]
      cases replied : g.ask? call with
      | none =>
        rw [run?, run?, replied]
        rfl
      | some answer =>
        obtain ⟨reply, h⟩ := answer
        have same : h.forks = g.forks := (isDraw_ask? asked).forks replied
        have no_child : reply.child?.isNone := by rw [child?_of_ask? asked replied]; rfl
        have rest := ih (g := h) (same ▸ room)
        rw [run?_cons replied, run?_cons replied, rest, same]
        cases h.run? calls with
        | none => rfl
        | some ending =>
          exact congrArg (fun replies => some (replies, ending.2.withForks g.forks))
            (List.filter_cons_of_pos (p := fun reply : Reply => reply.child?.isNone) no_child).symm
    | true =>
      obtain rfl := Call.eq_fork asked
      rw [List.countP_cons_of_pos asked] at room
      have next := forks_succ (g := g) (by omega)
      -- The draws that are left are the same after the fork as they were before it.
      have only_draws : ∀ call ∈ calls.filter (!·.isFork), call.isFork = false := by simp
      have draws := (isDraw_run? only_draws).withForks (g.withForks (g.forks + 1)) g.forks
      rw [withForks_withForks, withForks_self] at draws
      have rest := ih (g := g.withForks (g.forks + 1)) (by rw [withForks_forks, next]; omega)
      rw [List.filter_cons_of_neg (by simp [asked]), draws, rest,
        run?_cons (ask?_fork (by omega))]
      cases (g.withForks (g.forks + 1)).run? calls <;> rfl

/-- A run keeps the seed. Its children are those of the next ranks. -/
theorem children_of_run? {g h : Generator} {calls : List Call} {replies : List Reply}
    (run : g.run? calls = some (replies, h)) :
    h.seed = g.seed ∧ h.forks.toNat = g.forks.toNat + calls.countP Call.isFork ∧
      replies.filterMap Reply.child? =
        (List.range' (g.forks.toNat + 1) (calls.countP Call.isFork)).map g.child := by
  induction calls generalizing g replies with
  | nil =>
    obtain ⟨rfl, rfl⟩ := Prod.mk.inj (Option.some.inj run)
    exact ⟨rfl, rfl, rfl⟩
  | cons call calls ih =>
    obtain ⟨⟨reply, mid⟩, replied, later⟩ := Option.bind_eq_some_iff.1 run
    obtain ⟨⟨others, last⟩, rest, same⟩ := Option.map_eq_some_iff.1 later
    obtain ⟨rfl, rfl⟩ := Prod.mk.inj same
    obtain ⟨seed, forks, children⟩ := ih rest
    cases asked : call.isFork with
    | false =>
      have kept := (isDraw_ask? asked).seed replied
      have count := (isDraw_ask? asked).forks replied
      rw [List.countP_cons_of_neg (by simp [asked]),
        List.filterMap_cons_none (child?_of_ask? asked replied), ← count, ← child_of_seed kept]
      exact ⟨seed.trans kept, forks, children⟩
    | true =>
      obtain rfl := Call.eq_fork asked
      have room : g.forks.toNat + 1 < 2 ^ 64 := by
        by_contra full
        rw [ask?, fork?_eq_none (Nat.not_lt.1 full)] at replied
        contradiction
      rw [ask?_fork room] at replied
      obtain ⟨rfl, rfl⟩ := Prod.mk.inj (Option.some.inj replied)
      rw [withForks_forks, forks_succ room] at forks children
      rw [List.countP_cons_of_pos asked]
      refine ⟨seed, by omega, ?_⟩
      rw [List.filterMap_cons_some (f := Reply.child?) rfl, children, List.range'_succ]
      rfl

/-- What the forks among some calls come to. -/
structure ForksApart (g : Generator) (calls : List Call) : Prop where
  /-- A fork gives the child of the next rank, whatever was drawn before, and nothing but the number
  of children changes. -/
  fork : ∀ before after, calls = before ++ .fork :: after → ∀ replies h,
    g.run? before = some (replies, h) →
    h.fork? = some (g.child (g.forks.toNat + (before.countP Call.isFork + 1)),
      h.withForks (h.forks + 1))
  /-- Without the forks there are the same draws, which end at the same place of the stream. -/
  draws : g.run? (calls.filter (!·.isFork)) = (g.run? calls).map fun (replies, h) =>
    (replies.filter (·.child?.isNone), h.withForks g.forks)
  /-- The children are those of the ranks in a row. -/
  children : ∀ replies h, g.run? calls = some (replies, h) → replies.filterMap Reply.child? =
    (List.range' (g.forks.toNat + 1) (calls.countP Call.isFork)).map g.child
  /-- The seeds of the parent and of all children are different. -/
  distinct : (g.seed :: ((List.range' (g.forks.toNat + 1) (calls.countP Call.isFork)).map
    g.child).map Generator.seed).Nodup

/-- Draws and forks do not disturb each other, in whatever order they come, as long as the number of
children fits. The child of each rank starts the stream of a seed of its own. -/
theorem forks_stand_apart (g : Generator) (calls : List Call)
    (room : g.forks.toNat + calls.countP Call.isFork < 2 ^ 64) : ForksApart g calls where
  fork := by
    rintro before after rfl replies h run
    obtain ⟨seed, forks, -⟩ := children_of_run? run
    rw [List.countP_append, List.countP_cons_of_pos rfl] at room
    rw [fork?_eq_some (by omega), child_of_seed seed, forks, Nat.add_assoc]
  draws := run?_filter room
  children _ _ run := (children_of_run? run).2.2
  distinct := nodup_seeds g room

/-- Three children of a generator that was resumed with room for no more, drawn between. -/
theorem last_forks_stand_apart :
    ∃ replies h, (resume ⟨42, 0x100000000000000005, 0xfffffffffffffffc⟩).run?
        [.fork, .color 3, .fork, .choose [0, 1], .fork] = some (replies, h) ∧
      replies.filterMap Reply.child? =
        [ofSeed 2691343689449507819, ofSeed 14092058508772706304, ofSeed 7046029254386353173] := by
  have apart := forks_stand_apart (resume ⟨42, 0x100000000000000005, 0xfffffffffffffffc⟩)
    [.fork, .color 3, .fork, .choose [0, 1], .fork] (by decide +kernel)
  have replied : ((resume ⟨42, 0x100000000000000005, 0xfffffffffffffffc⟩).run?
      [.fork, .color 3, .fork, .choose [0, 1], .fork]).isSome := by decide +kernel
  obtain ⟨⟨replies, h⟩, run⟩ := Option.isSome_iff_exists.1 replied
  refine ⟨replies, h, run, ?_⟩
  rw [apart.children replies h run]
  decide +kernel

end RingLock.Generator
