import Mathlib.Data.List.Basic
import RingLock.Fault

/-!
# Computations that may fail

A list is traversed by a step that may fail. The traversal succeeds exactly when every step does,
and its result holds the results of the steps and nothing else. What the steps of a fold keep holds
at its end, and two folds whose steps go together go together. Failures with a cause are reduced to
failures without one by forgetting the cause. An attempt succeeds exactly when its parts do.
-/
namespace RingLock

namespace Traversal

variable {α β ε : Type}

theorem exists_mapM {f : α → Option β} {xs : List α} (total : ∀ x ∈ xs, (f x).isSome) :
    ∃ ys, xs.mapM f = some ys := by
  induction xs with
  | nil => exact ⟨[], rfl⟩
  | cons x xs ih =>
    have first := Option.some_get (total x List.mem_cons_self)
    obtain ⟨ys, rest⟩ := ih fun z hz => total z (List.mem_cons_of_mem x hz)
    exact ⟨_ :: ys, by rw [List.mapM_cons, ← first, rest]; rfl⟩

/-- A traversal whose results are put together by a total function. -/
theorem exists_mapM_bind {γ : Type} {f : α → Option β} {g : List β → γ} {xs : List α}
    (total : ∀ x ∈ xs, ∃ y, f x = some y) :
    ∃ z, (xs.mapM f >>= fun ys => some (g ys)) = some z := by
  obtain ⟨ys, run⟩ := exists_mapM fun x hx => Option.isSome_iff_exists.2 (total x hx)
  exact ⟨g ys, by rw [run]; rfl⟩

theorem mapM_eq_some_map {f : α → Option β} {g : α → β} {xs : List α}
    (total : ∀ x ∈ xs, f x = some (g x)) : xs.mapM f = some (xs.map g) := by
  induction xs with
  | nil => rfl
  | cons x xs ih =>
    have rest := ih fun z hz => total z (List.mem_cons_of_mem x hz)
    rw [List.mapM_cons, total x List.mem_cons_self, rest]
    rfl

theorem mem_mapM {f : α → Option β} {xs : List α} {ys : List β} (h : xs.mapM f = some ys) (y : β) :
    y ∈ ys ↔ ∃ x ∈ xs, f x = some y := by
  induction xs generalizing ys with
  | nil =>
    obtain rfl : [] = ys := by simpa using h
    simp
  | cons x xs ih =>
    obtain ⟨z, hz, zs, hzs, rfl⟩ :
        ∃ z, f x = some z ∧ ∃ zs, xs.mapM f = some zs ∧ z :: zs = ys := by
      simpa [List.mapM_cons, Option.bind_eq_some_iff] using h
    simp [ih hzs, hz, eq_comm]

theorem mapM_total {f : α → Option β} {xs : List α} {ys : List β} (h : xs.mapM f = some ys) {x : α}
    (hx : x ∈ xs) : ∃ y, f x = some y := by
  induction xs generalizing ys with
  | nil => contradiction
  | cons z xs ih =>
    obtain ⟨y, hz, zs, hzs, -⟩ : ∃ y, f z = some y ∧ ∃ zs, xs.mapM f = some zs ∧ y :: zs = ys := by
      simpa [List.mapM_cons, Option.bind_eq_some_iff] using h
    rcases List.mem_cons.1 hx with rfl | later
    · exact ⟨y, hz⟩
    · exact ih hzs later

/-- A traversal that tells the items apart keeps them distinct. -/
theorem nodup_mapM {f : α → Option β} (injective : ∀ {x y z}, f x = some z → f y = some z → x = y)
    {xs : List α} (distinct : xs.Nodup) {ys : List β} (h : xs.mapM f = some ys) : ys.Nodup := by
  induction xs generalizing ys with
  | nil =>
    obtain rfl : [] = ys := by simpa using h
    exact List.nodup_nil
  | cons x xs ih =>
    obtain ⟨y, hx, zs, hxs, rfl⟩ :
        ∃ y, f x = some y ∧ ∃ zs, xs.mapM f = some zs ∧ y :: zs = ys := by
      simpa [List.mapM_cons, Option.bind_eq_some_iff] using h
    obtain ⟨fresh, distinct⟩ := List.nodup_cons.1 distinct
    refine List.nodup_cons.2 ⟨fun again => ?_, ih distinct hxs⟩
    obtain ⟨x', later, hx'⟩ := (mem_mapM hxs y).1 again
    exact fresh (injective hx hx' ▸ later)

theorem toOption_eq_some {x : Except ε α} {a : α} : x.toOption = some a ↔ x = .ok a := by
  cases x <;> simp [Except.toOption]

theorem toOption_mapM (f : α → Except ε β) (xs : List α) :
    (xs.mapM f).toOption = xs.mapM fun x => (f x).toOption := by
  induction xs with
  | nil => rfl
  | cons x xs ih =>
    rw [List.mapM_cons, List.mapM_cons, ← ih]
    cases f x with
    | error e => rfl
    | ok y => cases xs.mapM f <;> rfl

theorem mem_zip_iff {xs : List α} {ys : List β} {p : α × β} :
    p ∈ xs.zip ys ↔ ∃ i : ℕ, xs[i]? = some p.1 ∧ ys[i]? = some p.2 := by
  rw [List.mem_iff_getElem?]
  simp only [List.getElem?_zip_eq_some]

theorem bind_eq_ok {x : Except ε α} {f : α → Except ε β} {b : β} :
    x >>= f = .ok b ↔ ∃ a, x = .ok a ∧ f a = .ok b := by
  cases x with
  | error e => exact ⟨nofun, nofun⟩
  | ok a => simp [bind, Except.bind]

theorem forM_eq_ok {f : α → Except ε Unit} {xs : List α} :
    xs.forM f = .ok () ↔ ∀ x ∈ xs, f x = .ok () := by
  induction xs with
  | nil => simp [pure, Except.pure]
  | cons x xs ih =>
    change (f x >>= fun _ => xs.forM f) = .ok () ↔ _
    rw [bind_eq_ok, List.forall_mem_cons, ← ih]
    constructor
    · rintro ⟨⟨⟩, first, rest⟩
      exact ⟨first, rest⟩
    · rintro ⟨first, rest⟩
      exact ⟨(), first, rest⟩

/-- A check of the second items of pairs: nothing is left out if there are as many first items. -/
theorem forM_zip_eq_ok {f : α × β → Except ε Unit} {p : β → Prop} {xs : List α} {ys : List β}
    (enough : ys.length ≤ xs.length) (check : ∀ x, ∀ y ∈ ys, f (x, y) = .ok () ↔ p y) :
    (xs.zip ys).forM f = .ok () ↔ ∀ y ∈ ys, p y := by
  rw [forM_eq_ok]
  constructor
  · intro all y member
    have second : y ∈ (xs.zip ys).map Prod.snd := by rwa [List.map_snd_zip enough]
    obtain ⟨⟨x, _⟩, pair, rfl⟩ := List.mem_map.1 second
    exact (check x _ member).1 (all _ pair)
  · rintro all ⟨x, y⟩ pair
    have member := (List.of_mem_zip pair).2
    exact (check x y member).2 (all y member)

/-- A result behind a check that has to hold. -/
theorem provided_eq_ok {p : Prop} [Decidable p] {x : Except ε α} {e : ε} {a : α} :
    (if p then x else .error e) = .ok a ↔ p ∧ x = .ok a := by
  split <;> simp_all

/-- A result behind a check for the opposite. -/
theorem unless_eq_ok {p : Prop} [Decidable p] {x : Except ε α} {e : ε} {a : α} :
    (if ¬p then .error e else x) = .ok a ↔ p ∧ x = .ok a := by
  split <;> simp_all

theorem exists_mapM_ok {f : α → Except ε β} {xs : List α} (total : ∀ x ∈ xs, ∃ y, f x = .ok y) :
    ∃ ys, xs.mapM f = .ok ys := by
  simp only [← toOption_eq_some, toOption_mapM] at total ⊢
  exact exists_mapM fun x hx => Option.isSome_iff_exists.2 (total x hx)

/-- A traversal ends with the cause of the first step that fails. -/
theorem mapM_eq_error {f : α → Except ε β} {before : List α} {x : α} {e : ε}
    (passes : ∀ y ∈ before, ∃ z, f y = .ok z) (fails : f x = .error e) (after : List α) :
    (before ++ x :: after).mapM f = .error e := by
  obtain ⟨ys, passed⟩ := exists_mapM_ok passes
  rw [List.mapM_append, passed, List.mapM_cons, fails]
  rfl

theorem mem_mapM_ok {f : α → Except ε β} {xs : List α} {ys : List β} (h : xs.mapM f = .ok ys)
    (y : β) : y ∈ ys ↔ ∃ x ∈ xs, f x = .ok y := by
  simp only [← toOption_eq_some, toOption_mapM] at h ⊢
  exact mem_mapM h y

/-- A traversal whose results are known. -/
theorem mapM_eq_ok {f : α → Except ε β} {xs : List α} {ys : List β}
    (long : ys.length = xs.length) (each : ∀ p ∈ xs.zip ys, f p.1 = .ok p.2) :
    xs.mapM f = .ok ys := by
  induction xs generalizing ys with
  | nil =>
    obtain rfl := List.length_eq_zero_iff.1 long
    rfl
  | cons x xs ih =>
    match ys with
    | [] => contradiction
    | y :: ys =>
      obtain ⟨first, later⟩ := List.forall_mem_cons.1 each
      rw [List.mapM_cons, first, ih (Nat.succ.inj long) later]
      rfl

theorem length_mapM_ok {f : α → Except ε β} {xs : List α} {ys : List β} (h : xs.mapM f = .ok ys) :
    ys.length = xs.length := by
  induction xs generalizing ys with
  | nil =>
    obtain rfl := Except.ok.inj h
    rfl
  | cons x xs ih =>
    rw [List.mapM_cons, bind_eq_ok] at h
    obtain ⟨y, -, h⟩ := h
    obtain ⟨zs, rest, h⟩ := bind_eq_ok.1 h
    obtain rfl := Except.ok.inj h
    rw [List.length_cons, List.length_cons, ih rest]

theorem mapM_ok_total {f : α → Except ε β} {xs : List α} {ys : List β} (h : xs.mapM f = .ok ys)
    {x : α} (hx : x ∈ xs) : ∃ y, f x = .ok y := by
  simp only [← toOption_eq_some, toOption_mapM] at h ⊢
  exact mapM_total h hx

/-- What every step of a fold keeps holds at its end. -/
theorem exists_foldlM {σ κ : Type} {P : σ → Prop} {f : σ → κ → Option σ} {cells : List κ}
    (step : ∀ s, P s → ∀ cell ∈ cells, ∃ t, f s cell = some t ∧ P t) {s : σ} (start : P s) :
    ∃ t, cells.foldlM f s = some t ∧ P t := by
  induction cells generalizing s with
  | nil => exact ⟨s, rfl, start⟩
  | cons cell cells ih =>
    obtain ⟨t, first, kept⟩ := step s start cell List.mem_cons_self
    obtain ⟨u, later, ends⟩ :=
      ih (fun s start cell held => step s start cell (List.mem_cons_of_mem _ held)) kept
    exact ⟨u, by rw [List.foldlM_cons, first]; exact later, ends⟩

/-- A fold fails if one of its steps fails in every state. -/
theorem foldlM_eq_none {σ κ : Type} {f : σ → κ → Option σ} {cells : List κ} {cell : κ}
    (member : cell ∈ cells) (fails : ∀ s, f s cell = none) {s : σ} : cells.foldlM f s = none := by
  induction cells generalizing s with
  | nil => contradiction
  | cons first cells ih =>
    rw [List.foldlM_cons]
    rcases List.mem_cons.1 member with rfl | later
    · rw [fails]
      rfl
    · cases f s first with
      | none => rfl
      | some t => exact ih later

/-- Two folds whose steps succeed together and keep two states related. -/
theorem foldlM_related {σ τ κ : Type} {R : σ → τ → Prop} {f : σ → κ → Option σ}
    {g : τ → κ → Option τ} {cells : List κ}
    (step : ∀ s t, R s t → ∀ cell ∈ cells, ∃ s' t', f s cell = some s' ∧ g t cell = some t' ∧
      R s' t') {s : σ} {t : τ} (start : R s t) :
    ∃ s' t', cells.foldlM f s = some s' ∧ cells.foldlM g t = some t' ∧ R s' t' := by
  induction cells generalizing s t with
  | nil => exact ⟨s, t, rfl, rfl, start⟩
  | cons cell cells ih =>
    obtain ⟨s', t', left, right, related⟩ := step s t start cell List.mem_cons_self
    obtain ⟨u, v, left', right', ends⟩ :=
      ih (fun s t start cell held => step s t start cell (List.mem_cons_of_mem _ held)) related
    refine ⟨u, v, ?_, ?_, ends⟩
    · rw [List.foldlM_cons, left]
      exact left'
    · rw [List.foldlM_cons, right]
      exact right'

end Traversal

namespace Attempt

variable {α β : Type}

theorem bind_eq_ok {x : Attempt α} {f : α → Attempt β} {b : β} :
    (x >>= f).run = some (.ok b) ↔ ∃ a, x.run = some (.ok a) ∧ (f a).run = some (.ok b) := by
  rw [ExceptT.run_bind]
  constructor
  · intro h
    obtain ⟨result, first, rest⟩ := Option.bind_eq_some_iff.1 h
    cases result with
    | error fault => simp [pure] at rest
    | ok a => exact ⟨a, first, rest⟩
  · rintro ⟨a, first, rest⟩
    rw [first]
    exact rest

@[simp] theorem run_ofOption {x : Option α} {a : α} :
    (ofOption x).run = some (.ok a) ↔ x = some a := by
  cases x <;> simp [ofOption]

@[simp] theorem run_ofExcept {x : Except Fault α} {a : α} :
    (ofExcept x).run = some (.ok a) ↔ x = .ok a := by
  simp [ofExcept]

/-- What an attempt behind a check comes to. -/
theorem run_check_then (check : Except Fault Unit) (x : Attempt β) :
    (ofExcept check >>= fun _ => x).run = match check with
      | .ok () => x.run
      | .error fault => some (.error fault) := by
  cases check <;> rfl

/-- An attempt behind a check. -/
theorem check_then_eq_ok {check : Except Fault Unit} {x : Attempt β} {b : β} :
    (ofExcept check >>= fun _ => x).run = some (.ok b) ↔ check = .ok () ∧ x.run = some (.ok b) := by
  rw [run_check_then]
  cases check <;> simp

end Attempt

end RingLock
