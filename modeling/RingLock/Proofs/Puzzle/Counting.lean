import Mathlib.Data.Fintype.BigOperators
import RingLock.Proofs.Arena.Description
import RingLock.Proofs.Puzzle.Rings

/-!
# Counting rings and hands

How many rings show one color, how many the player can make of a ring in one turn, and how many
hands and actions there are. Colorings of a lawful representation are counted like the rings that
they show, since each ring is shown by exactly one of them. Moves without their repetitions are
counted by their sources and actions.
-/
namespace RingLock

namespace Puzzle

variable {holes colors : ℕ}

/-- The player can give each pending hole any color, and no other hole. -/
theorem card_reaches (ring : Fin holes → Fin colors) (pending : Finset (Fin holes))
    (amount : Fin holes) :
    (Finset.univ.filter (Reaches ring pending amount)).card = colors ^ pending.card := by
  let choices (i : Fin holes) : Finset (Fin colors) :=
    if i ∈ pending then Finset.univ else {ring (i - amount)}
  have product : Finset.univ.filter (Reaches ring pending amount) = Fintype.piFinset choices := by
    ext next
    simp only [Finset.mem_filter, Finset.mem_univ, true_and, Fintype.mem_piFinset]
    refine forall_congr' fun i => ?_
    by_cases held : i ∈ pending <;> simp [choices, held]
  have size (i : Fin holes) : (choices i).card = if i ∈ pending then colors else 1 := by
    by_cases held : i ∈ pending <;> simp [choices, held]
  rw [product, Fintype.card_piFinset, Finset.prod_congr rfl fun i _ => size i,
    Finset.prod_ite_mem, Finset.univ_inter, Finset.prod_const]

/-- A ring of one color is known by its color. -/
theorem card_solved (positive : 0 < holes) :
    (Finset.univ.filter (Solved : (Fin holes → Fin colors) → Prop)).card = colors := by
  have constant : Finset.univ.filter (Solved : (Fin holes → Fin colors) → Prop) =
      Finset.univ.image fun color (_ : Fin holes) => color := by
    ext ring
    simp only [Finset.mem_filter, Finset.mem_univ, true_and, Finset.mem_image]
    constructor
    · intro solved
      exact ⟨ring ⟨0, positive⟩, funext fun i => solved _ i⟩
    · rintro ⟨color, rfl⟩ i j
      rfl
  rw [constant, Finset.card_image_of_injective, Finset.card_univ, Fintype.card_fin]
  exact fun a b same => congrFun same ⟨0, positive⟩

end Puzzle

theorem Action.map_amount_range {count : ℕ} (short : count < UInt16.size) :
    (range count).map amount = List.range count := by
  rw [range, Nat.mod_eq_of_lt short, List.map_map]
  refine (List.map_congr_left fun n bounded => ?_).trans (List.map_id _)
  exact amount_ofNat ((List.mem_range.1 bounded).trans short)

theorem Action.nodup_range {count : ℕ} (short : count < UInt16.size) : (range count).Nodup := by
  apply List.Nodup.of_map amount
  rw [map_amount_range short]
  exact List.nodup_range

theorem Action.card_range {count : ℕ} (short : count < UInt16.size) :
    (range count).toFinset.card = count := by
  rw [List.toFinset_card_of_nodup (nodup_range short), ← List.length_map amount,
    map_amount_range short, List.length_range]

namespace Hand

theorem card_toFinset_full {holes : ℕ} (small : holes ≤ 256) (size : ℕ) :
    (full holes size).toFinset.card = holes.choose size := by
  apply le_antisymm
  · rw [← length_full]
    exact List.toFinset_card_le _
  · have sets : (Finset.univ.powersetCard size : Finset (Finset (Fin holes))).card =
        holes.choose size := by
      rw [Finset.card_powersetCard, Finset.card_univ, Fintype.card_fin]
    rw [← sets]
    refine Finset.card_le_card_of_surjOn (set holes) fun s member => ?_
    obtain ⟨-, rfl⟩ := Finset.mem_powersetCard.1 (Finset.mem_coe.1 member)
    obtain ⟨h, full, same⟩ := exists_full_of_card small s
    exact ⟨h, by simpa using full, same⟩

theorem toFinset_options (holes size : ℕ) :
    (options holes size).toFinset = insert empty (full holes size).toFinset := by
  ext h
  simp [options]

theorem empty_notMem_full {holes size : ℕ} (some_held : 1 ≤ size) :
    empty ∉ (full holes size).toFinset := by
  intro member
  have := size_of_mem_full (List.mem_toFinset.1 member)
  rw [size_empty] at this
  omega

theorem card_toFinset_options {holes size : ℕ} (small : holes ≤ 256) (some_held : 1 ≤ size) :
    (options holes size).toFinset.card = holes.choose size + 1 := by
  rw [toFinset_options, Finset.card_insert_of_notMem (empty_notMem_full some_held),
    card_toFinset_full small]

/-- How many recolorings there are of a full hand and of none. -/
theorem sum_options {holes size : ℕ} (small : holes ≤ 256) (some_held : 1 ≤ size)
    (colors : ℕ) : ∑ h ∈ (options holes size).toFinset, colors ^ (h.set holes).card =
      holes.choose size * colors ^ size + 1 := by
  have each : ∀ h ∈ (full holes size).toFinset,
      colors ^ (h.set holes).card = colors ^ size := fun h member => by
    rw [card_set small (List.mem_toFinset.1 member)]
  rw [toFinset_options, Finset.sum_insert (empty_notMem_full some_held), Finset.sum_congr rfl each,
    Finset.sum_const, card_toFinset_full small, Nat.nsmul_eq_mul, set_empty, Finset.card_empty,
    pow_zero, Nat.add_comm]

end Hand

namespace Coloring

open Readable Puzzle

variable {C : Type} [DecidableEq C] [Coloring C] [Readable C] {holes colors : ℕ}

/-- Colorings are counted like the rings that they show. -/
theorem Lawful.card_filter (lawful : Lawful C holes colors) (bytes : colors ≤ 256) {P : C → Prop}
    {Q : (Fin holes → Fin colors) → Prop} [DecidablePred P] [DecidablePred Q]
    (same : ∀ c ∈ (all holes colors : List C), ∀ ring, Shows c ring → (P c ↔ Q ring)) :
    ((all holes colors : List C).toFinset.filter P).card = (Finset.univ.filter Q).card := by
  have listed {c : C} (member : c ∈ (all holes colors : List C).toFinset.filter P) :
      c ∈ (all holes colors : List C) ∧ P c := by simpa using member
  choose ring shown using fun c (hc : c ∈ (all holes colors : List C)) => lawful.exists_ring hc
  apply Finset.card_bij fun c member => ring c (listed member).1
  case hi =>
    intro c member
    obtain ⟨hc, holds⟩ := listed member
    exact Finset.mem_filter.2 ⟨Finset.mem_univ _, (same c hc _ (shown c hc)).1 holds⟩
  case i_inj =>
    intro c member d member' agree
    obtain ⟨hc, -⟩ := listed member
    obtain ⟨hd, -⟩ := listed member'
    refine lawful.ext c hc d hd fun i inside => ?_
    rw [shown c hc ⟨i, inside⟩, shown d hd ⟨i, inside⟩, agree]
  case i_surj =>
    intro ring' member
    obtain ⟨c, hc, shows⟩ := lawful.exists_shown bytes ring'
    have holds : Q ring' := (Finset.mem_filter.1 member).2
    refine ⟨c, ?_, (shown c hc).unique bytes shows⟩
    simpa using ⟨hc, (same c hc ring' shows).2 holds⟩

theorem Lawful.card_all (lawful : Lawful C holes colors) (bytes : colors ≤ 256) :
    (all holes colors : List C).toFinset.card = colors ^ holes := by
  have count := lawful.card_filter bytes (P := fun _ => True) (Q := fun _ => True)
    fun _ _ _ _ => Iff.rfl
  simpa using count

theorem Lawful.card_oneColor (lawful : Lawful C holes colors) (bytes : colors ≤ 256)
    (positive : 0 < holes) :
    ((all holes colors : List C).toFinset.filter fun c => OneColor c holes).card = colors := by
  refine (lawful.card_filter bytes fun c hc ring shown => ?_).trans (card_solved positive)
  rw [← lawful.isUniform_iff_solved bytes hc shown]
  exact (lawful.isUniform_iff c hc).symm

theorem Lawful.card_not_oneColor (lawful : Lawful C holes colors) (bytes : colors ≤ 256)
    (positive : 0 < holes) :
    ((all holes colors : List C).toFinset.filter fun c => ¬OneColor c holes).card =
      colors ^ holes - colors := by
  have whole := Finset.card_filter_add_card_filter_not (s := (all holes colors : List C).toFinset)
    fun c => OneColor c holes
  rw [lawful.card_all bytes, lawful.card_oneColor bytes positive] at whole
  omega

theorem Lawful.card_carried (lawful : Lawful C holes colors) (bytes : colors ≤ 256) {c : C}
    (hc : c ∈ (all holes colors : List C)) (hand : Hand) {amount : ℕ} (bounded : amount < holes) :
    ((all holes colors : List C).toFinset.filter fun d => Carried c d hand holes amount).card =
      colors ^ (hand.set holes).card := by
  obtain ⟨ring, shown⟩ := lawful.exists_ring hc
  rw [← card_reaches ring (hand.set holes) ⟨amount, bounded⟩]
  refine lawful.card_filter bytes fun d _ next shown' => ?_
  exact Shows.carried_iff bytes shown shown' hand ⟨amount, bounded⟩

end Coloring

namespace Arena

/-- Moves, each counted once, are counted by their sources and actions. -/
theorem length_eraseDups_moves {L : Type} [DecidableEq L] {moves : List (L × Action × L)}
    {sources : Finset L} {actions : Finset Action} {targets : L → Action → Finset L}
    (listed : ∀ l a m, (l, a, m) ∈ moves ↔ l ∈ sources ∧ a ∈ actions ∧ m ∈ targets l a) :
    moves.eraseDups.length = ∑ l ∈ sources, ∑ a ∈ actions, (targets l a).card := by
  rw [← List.toFinset_card_of_nodup (nodup_eraseDups moves)]
  simp only [← Finset.card_sigma]
  apply Finset.card_bij fun t _ => ⟨t.1, t.2.1, t.2.2⟩
  case hi =>
    rintro ⟨l, a, m⟩ member
    simpa [listed] using member
  case i_inj =>
    rintro ⟨l, a, m⟩ _ ⟨l', a', m'⟩ _ same
    simpa using same
  case i_surj =>
    rintro ⟨l, a, m⟩ member
    exact ⟨(l, a, m), by simpa [listed] using member, rfl⟩

end Arena

end RingLock
