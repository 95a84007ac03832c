import RingLock.Proofs.Encoding.Exact

/-!
# Round trips of the puzzle's values

A record is restored from its own form if its fields are: their names are distinct, each value
passes the check of its field, and what stands under the names makes up the record. So every value
that is stored or sent is restored from its text, and bytes are read exactly. Only a live ring has
to be sound.
-/
namespace RingLock

namespace JsonForm

section Records

variable {α : Type} {known : List Field} {got fields : List (String × Json)}

/-- Fields under distinct names are all read, the last one first. -/
theorem named_of_distinct (distinct : ((got ++ fields).map Prod.fst).Nodup)
    (passes : ∀ f ∈ fields, ∃ check, known.lookup f.1 = some check ∧ check f.2 = .ok ()) :
    named known got (fields.map fun f => (some f.1, f.2)) = .ok (fields.reverse ++ got) := by
  induction fields generalizing got with
  | nil => rfl
  | cons f fields ih =>
    obtain ⟨⟨check, there, passed⟩, later⟩ := List.forall_mem_cons.1 passes
    have moved : ((got ++ f :: fields).map Prod.fst).Perm (f.1 :: (got ++ fields).map Prod.fst) :=
      List.perm_middle.map Prod.fst
    have distinct' : ((f :: got ++ fields).map Prod.fst).Nodup := moved.nodup_iff.1 distinct
    have absent : got.lookup f.1 = none := by
      refine List.lookup_eq_none_iff.2 fun p held => bne_iff_ne.2 fun same => ?_
      apply (List.nodup_cons.1 distinct').1
      exact same ▸ List.mem_map_of_mem (List.mem_append_left fields held)
    rw [List.map_cons, named, there]
    simp only [absent, Option.isSome_none, Bool.false_eq_true, if_false, passed]
    change named known (f :: got) _ = _
    rw [ih distinct' later, List.reverse_cons, List.append_assoc]
    rfl

/-- A field whose text tells all of its value and whose value passes its check. -/
def Kept (known : List Field) (f : String × Json) : Prop :=
  f.2.Exact ∧ ∃ check, known.lookup f.1 = some check ∧ check f.2 = .ok ()

theorem Restores.kept [JsonForm α] {name : String} {x : α} (restores : Restores x)
    (found : known.lookup name = some (accepts α)) : Kept known (name, toJson x) :=
  ⟨restores.exact, _, found, accepts_eq_ok.2 ⟨x, restores.form⟩⟩

/-- The value of a field, where more is to be taken from the record. -/
theorem Restores.take {β : Type} [JsonForm α] {name : String} {x : α} (restores : Restores x)
    {next : α → Except FormFault β} (found : got.lookup name = some (toJson x)) :
    (field got name >>= next) = next x := by
  rw [field_eq_ok.2 ⟨_, found, restores.form⟩]
  rfl

/-- A record is restored if its fields are kept and make up the record again. -/
theorem restores_record [JsonForm α] {x : α} {owner : String}
    {take : List (String × Json) → Except FormFault α} (writes : toJson x = .ofFields fields)
    (reads : ∀ j, ofJson j = fieldsOf owner known j >>= take)
    (distinct : (fields.map Prod.fst).Nodup) (kept : ∀ f ∈ fields, Kept known f)
    (takes : take fields.reverse = .ok x) : Restores x where
  exact := by
    rw [writes, Json.exact_ofFields]
    exact fun f held => (kept f held).1
  form := by
    have named :
        named known [] (fields.map fun f => (some f.1, f.2)) = .ok (fields.reverse ++ []) :=
      named_of_distinct distinct fun f held => (kept f held).2
    rw [writes, reads, Json.ofFields, fieldsOf, named, List.append_nil]
    exact takes

end Records

theorem restores_uint32 (n : UInt32) : Restores n :=
  restores_number (fun _ => rfl) (fun _ => rfl) n.toNat_lt UInt32.ofNat_toNat

theorem restores_uint64 (n : UInt64) : Restores n :=
  restores_number (fun _ => rfl) (fun _ => rfl) n.toNat_lt UInt64.ofNat_toNat

theorem restores_bitVec (n : BitVec 128) : Restores n :=
  restores_number (fun _ => rfl) (fun _ => rfl) n.isLt (BitVec.ofNat_toNat 128 n)

theorem restores_bool (b : Bool) : Restores b := ⟨trivial, rfl⟩

theorem restores_phase (p : Phase) : Restores p where
  exact := rfl
  form := by cases p <;> rfl

theorem restores_bytes (xs : List UInt8) : Restores xs := restores_list fun x _ => restores_uint8 x

theorem restores_hand (h : Hand) : Restores h where
  exact := (restores_bytes h.holes).exact
  form := congrArg (Except.map Hand.mk) (restores_bytes h.holes).form

theorem restores_packed (c : Packed) : Restores c where
  exact := (restores_uint32 c.bits).exact
  form := congrArg (Except.map Packed.mk) (restores_uint32 c.bits).form

theorem restores_listed (c : Listed) : Restores c where
  exact := (restores_bytes c.colors).exact
  form := congrArg (Except.map Listed.mk) (restores_bytes c.colors).form

theorem restores_config (c : Config) : Restores c := by
  have holes := restores_uint64 c.holes
  have hand := restores_uint64 c.hand
  have colors := restores_uint64 c.colors
  have seed := restores_uint64 c.seed
  refine restores_record rfl (fun _ => rfl) (by simp) ?_ ?_
  · simp only [List.forall_mem_cons]
    exact ⟨holes.kept rfl, hand.kept rfl, colors.kept rfl, seed.kept rfl, nofun⟩
  · refine (holes.take rfl).trans ((hand.take rfl).trans ?_)
    exact (colors.take rfl).trans (seed.take rfl)

theorem restores_checkpoint (c : Checkpoint) : Restores c := by
  have seed := restores_uint64 c.seed
  have wordPos := restores_bitVec c.wordPos
  have forks := restores_uint64 c.forks
  refine restores_record rfl (fun _ => rfl) (by simp) ?_ ?_
  · simp only [List.forall_mem_cons]
    exact ⟨seed.kept rfl, wordPos.kept rfl, forks.kept rfl, nofun⟩
  · exact (seed.take rfl).trans ((wordPos.take rfl).trans (forks.take rfl))

theorem restores_stats (s : Stats) : Restores s := by
  have iterations := restores_uint32 s.iterations
  have calls := restores_uint32 s.predecessorCalls
  have initial := restores_uint64 s.initialSize
  have final := restores_uint64 s.finalSize
  have micros := restores_uint64 s.micros
  refine restores_record rfl (fun _ => rfl) (by simp) ?_ ?_
  · simp only [List.forall_mem_cons]
    exact ⟨iterations.kept rfl, calls.kept rfl, initial.kept rfl, final.kept rfl, micros.kept rfl,
      nofun⟩
  · refine (iterations.take rfl).trans ((calls.take rfl).trans ?_)
    exact (initial.take rfl).trans ((final.take rfl).trans (micros.take rfl))

theorem restores_position {C : Type} [JsonForm C] {p : Position C}
    (coloring : Restores p.coloring) : Restores p := by
  have hand := restores_hand p.hand
  refine restores_record rfl (fun _ => rfl) (by simp) ?_ ?_
  · simp only [List.forall_mem_cons]
    exact ⟨coloring.kept rfl, hand.kept rfl, nofun⟩
  · exact (coloring.take rfl).trans (hand.take rfl)

theorem restores_region (r : Region) : Restores r := by
  have members := restores_list fun b (_ : b ∈ r.members.toList) => restores_bool b
  have count := restores_uint64 r.count
  refine restores_record rfl (fun _ => rfl) (by simp) ?_ ?_
  · simp only [List.forall_mem_cons]
    exact ⟨members.kept rfl, count.kept rfl, nofun⟩
  · exact (members.take rfl).trans (count.take rfl)

end JsonForm

open Binary JsonForm

/-- What can be stored is read from its bytes in front of whatever follows, and whatever is read
stands in front in its own form. What can be restored is restored from its text. -/
structure RoundTrips (α : Type) [Binary α] [JsonForm α] (storable restorable : α → Prop) :
    Prop where
  readsBack : ∀ x, storable x → ReadsBack x
  read_eq_ok : ∀ input x, Binary.read input = .ok x ↔ storable x ∧ encode x <+: input
  restored : ∀ x, restorable x → JsonForm.read (write x) = some (.ok x)

theorem Binary.Exact.roundTrips {α : Type} [Binary α] [JsonForm α] {storable restorable : α → Prop}
    (exact : Exact α storable) (restores : ∀ x, restorable x → Restores x) :
    RoundTrips α storable restorable where
  readsBack _ := exact.readsBack
  read_eq_ok _ _ := exact.read_eq_ok
  restored x restorable := (restores x restorable).restored

/-- Every kind of value makes the round trip through bytes and through text. The limits are those of
storage: lengths fit into eight bytes, and there is memory for the lists. -/
theorem values_roundTrip :
    RoundTrips Config (fun _ => True) (fun _ => True) ∧
    RoundTrips Checkpoint (fun _ => True) (fun _ => True) ∧
    RoundTrips Stats (fun _ => True) (fun _ => True) ∧
    RoundTrips Phase (fun _ => True) (fun _ => True) ∧
    RoundTrips Hand (fun h => Roomy h.holes) (fun _ => True) ∧
    RoundTrips Packed (fun _ => True) (fun _ => True) ∧
    RoundTrips Listed (fun c => Roomy c.colors) (fun _ => True) ∧
    RoundTrips Ring (fun r => r.Sound ∧ r.size < memory) Ring.Sound ∧
    RoundTrips Region (fun r => r.bound < UInt64.size) (fun _ => True) ∧
    RoundTrips (Position Packed) (fun p => Roomy p.hand.holes) (fun _ => True) ∧
    RoundTrips (Position Listed) (fun p => Roomy p.coloring.colors ∧ Roomy p.hand.holes)
      (fun _ => True) := by
  have packed : Exact (Position Packed) fun p => Roomy p.hand.holes := by
    simpa only [true_and] using exact_position exact_packed
  exact ⟨exact_config.roundTrips fun c _ => restores_config c,
    exact_checkpoint.roundTrips fun c _ => restores_checkpoint c,
    exact_stats.roundTrips fun s _ => restores_stats s,
    exact_phase.roundTrips fun p _ => restores_phase p,
    exact_hand.roundTrips fun h _ => restores_hand h,
    exact_packed.roundTrips fun c _ => restores_packed c,
    exact_listed.roundTrips fun c _ => restores_listed c,
    exact_ring.roundTrips fun _ => Ring.Sound.restores,
    exact_region.roundTrips fun r _ => restores_region r,
    packed.roundTrips fun p _ => restores_position (restores_packed p.coloring),
    (exact_position exact_listed).roundTrips fun p _ =>
      restores_position (restores_listed p.coloring)⟩

/-- A checkpoint at the largest position in front of one more byte, a ring of two colors, a region
whose number of members is not that of its flags, and a position of two holes as text. -/
theorem four_values_roundTrip :
    (decode : Decoder Checkpoint).run (encode (⟨5, .allOnes 128, 3⟩ : Checkpoint) ++ [7]) =
      .ok (⟨5, .allOnes 128, 3⟩, [7]) ∧
    (Binary.read (encode (⟨[1, 0], 2⟩ : Ring) ++ [9, 9]) : Except DecodeFault Ring) =
      .ok ⟨[1, 0], 2⟩ ∧
    (Binary.read [2, 0, 0, 0, 0, 0, 0, 0, 1, 0, 5, 0, 0, 0, 0, 0, 0, 0] :
      Except DecodeFault Region) = .ok ⟨#[true, false], 5⟩ ∧
    JsonForm.read (write (⟨⟨[4, 0]⟩, ⟨[1]⟩⟩ : Position Listed)) =
      some (.ok (⟨⟨[4, 0]⟩, ⟨[1]⟩⟩ : Position Listed)) := by
  obtain ⟨-, checkpoint, -, -, -, -, -, ring, region, -, position⟩ := values_roundTrip
  have sound : (⟨[1, 0], 2⟩ : Ring).Sound := by simp [Ring.Sound]
  exact ⟨checkpoint.readsBack _ trivial [7],
    (ring.read_eq_ok _ _).2 ⟨⟨sound, by decide⟩, List.prefix_append ..⟩,
    (region.read_eq_ok _ _).2 ⟨by decide, by decide⟩, position.restored _ trivial⟩

end RingLock
