import RingLock.Proofs.Encoding.Records

/-!
# Saving generators

A generator may be saved between any two calls and go on from what was saved: from its checkpoint,
or from the bytes or the text of it. None of this can be seen in the replies, in the children or in
the checkpoints after the calls. A checkpoint may name any position. Past the period it stands for
the position modulo the period, and for nothing else that could be told apart.
-/
namespace RingLock.Generator

open Binary JsonForm

/-- What a generator is asked for. -/
inductive Call : Type 1 where
  | between (low high : UInt64)
  | color (palette : UInt8)
  | choose {α : Type} (xs : List α)
  | fork

/-- What a generator replies. -/
inductive Reply : Type 1 where
  | number (n : UInt64)
  | color (color : UInt8)
  | chosen {α : Type} (x : Option α)
  | child (g : Generator)

/-- What a generator is saved as. -/
inductive Medium where
  | checkpoint
  | bytes
  | text

/-- A call, or a save from which the generator goes on. -/
inductive Event : Type 1 where
  | call (call : Call)
  | reload (medium : Medium)

/-- A reply, and the generator after it. -/
def ask? (g : Generator) : Call → Option (Reply × Generator)
  | .between low high => (g.between? low high).map fun (n, h) => (.number n, h)
  | .color palette => (g.color? palette).map fun (color, h) => (.color color, h)
  | .choose xs => (g.choose? xs).map fun (x, h) => (.chosen x, h)
  | .fork => g.fork?.map fun (child, h) => (.child child, h)

/-- What comes back when a generator is saved and resumed. -/
def reload? (g : Generator) : Medium → Option Generator
  | .checkpoint => some (resume g.checkpoint)
  | .bytes => (Binary.read (encode g.checkpoint)).toOption.map resume
  | .text => (JsonForm.read (write g.checkpoint)).bind fun found => found.toOption.map resume

/-- What can be seen of a generator: every reply with the checkpoint after it, up to the first call
without a reply. -/
def history (g : Generator) : List Event → List (Option (Reply × Checkpoint))
  | [] => []
  | .call call :: events =>
    match g.ask? call with
    | none => [none]
    | some (reply, h) => some (reply, h.checkpoint) :: h.history events
  | .reload medium :: events =>
    match g.reload? medium with
    | none => [none]
    | some h => h.history events

/-- The events without the saves. -/
def Event.isCall : Event → Bool
  | .call _ => true
  | .reload _ => false

/-- A generator comes back from every medium as it was. -/
theorem reload?_eq (g : Generator) (medium : Medium) : g.reload? medium = some g := by
  cases medium with
  | checkpoint => exact congrArg some g.resume_checkpoint
  | bytes =>
    have read : (Binary.read (encode g.checkpoint) : Except DecodeFault Checkpoint) =
        .ok g.checkpoint := exact_checkpoint.read_eq_ok.2 ⟨trivial, List.prefix_rfl⟩
    rw [reload?, read]
    exact congrArg some g.resume_checkpoint
  | text =>
    rw [reload?, (restores_checkpoint g.checkpoint).restored]
    exact congrArg some g.resume_checkpoint

theorem history_filter (g : Generator) (events : List Event) :
    g.history (events.filter Event.isCall) = g.history events := by
  induction events generalizing g with
  | nil => rfl
  | cons event events ih =>
    cases event with
    | call call =>
      rw [List.filter_cons_of_pos rfl, history, history]
      cases g.ask? call with
      | none => rfl
      | some replied => exact congrArg (_ :: ·) (ih replied.2)
    | reload medium =>
      rw [List.filter_cons_of_neg Bool.false_ne_true, history, reload?_eq]
      exact ih g

/-- A position is kept in the low bits of its written form. -/
theorem toNat_setWidth_period (position : BitVec 128) :
    (position.setWidth 68).toNat = position.toNat % period := by
  rw [BitVec.toNat_setWidth, period, Nat.one_shiftLeft]

theorem checkpoint_resume (c : Checkpoint) : (resume c).checkpoint =
    { c with wordPos := .ofNat 128 (c.wordPos.toNat % period) } := by
  have kept : (c.wordPos.setWidth 68).setWidth 128 = .ofNat 128 (c.wordPos.toNat % period) := by
    rw [← toNat_setWidth_period, BitVec.ofNat_toNat]
  exact congrArg (Checkpoint.mk c.seed · c.forks) kept

/-- Two checkpoints stand for one generator if they differ by whole periods at most. -/
theorem resume_eq_iff (c d : Checkpoint) : resume c = resume d ↔
    c.seed = d.seed ∧ c.forks = d.forks ∧
      c.wordPos.toNat % period = d.wordPos.toNat % period := by
  rw [← toNat_setWidth_period, ← toNat_setWidth_period, BitVec.toNat_inj, resume, resume,
    Generator.mk.injEq]
  tauto

/-- A generator shows its checkpoint with every reply, and the choice from nothing always has
one. -/
theorem eq_of_history_eq {g h : Generator} (same : ∀ events, g.history events = h.history events) :
    g = h := by
  have first := same [.call (.choose ([] : List Unit))]
  have shown : g.checkpoint = h.checkpoint := by
    simpa [history, ask?] using first
  calc
    g = resume g.checkpoint := g.resume_checkpoint.symm
    _ = resume h.checkpoint := congrArg resume shown
    _ = h := h.resume_checkpoint

/-- Saving a generator and going on from what was saved can be done anywhere and cannot be seen. The
checkpoint of a resumed generator is the one that it was resumed from, with the position taken
modulo the period. Two checkpoints that differ in anything else can be told apart. -/
theorem saving_unobservable :
    (∀ (g : Generator) (events : List Event),
      g.history events = g.history (events.filter Event.isCall)) ∧
    (∀ c : Checkpoint, (resume c).checkpoint =
      { c with wordPos := .ofNat 128 (c.wordPos.toNat % period) }) ∧
    ∀ c d : Checkpoint, (∀ events, (resume c).history events = (resume d).history events) ↔
      c.seed = d.seed ∧ c.forks = d.forks ∧
        c.wordPos.toNat % period = d.wordPos.toNat % period := by
  refine ⟨fun g events => (history_filter g events).symm, checkpoint_resume, fun c d => ?_⟩
  rw [← resume_eq_iff]
  exact ⟨eq_of_history_eq, fun same events => by rw [same]⟩

end RingLock.Generator
