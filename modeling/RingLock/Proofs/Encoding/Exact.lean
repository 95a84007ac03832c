import RingLock.Proofs.Encoding.RoundTrip
import RingLock.Proofs.Ring.Stored

/-!
# Exact readers

A reader is exact if it finds precisely the values that can be stored, each in front of whatever
follows its form. So a value is read back from its form, and bytes that are read begin with the form
of what is found. Records are exact if their fields are. Of the values that are stored only lists
have a limit: their length has to fit into eight bytes, and there has to be room for a list of
bytes. A live ring has to be sound as well.
-/
namespace RingLock.Binary

variable {α : Type}

/-- What is found is what can be stored, and it is found in its own form. -/
structure Exact (α : Type) [Binary α] (storable : α → Prop) : Prop where
  run_eq_ok : ∀ {input rest : List UInt8} {x : α},
    (decode : Decoder α).run input = .ok (x, rest) ↔ storable x ∧ input = encode x ++ rest

section

variable [Binary α] {storable : α → Prop}

theorem exact_of_readsBack [Canonical α] (reads : ∀ x, storable x → ReadsBack x)
    (stored : ∀ {input rest} {x : α}, (decode : Decoder α).run input = .ok (x, rest) →
      storable x) : Exact α storable where
  run_eq_ok := by
    intro input rest x
    constructor
    · exact fun read => ⟨stored read, Canonical.own_form read⟩
    · rintro ⟨storable, rfl⟩
      exact reads x storable rest

theorem Exact.canonical (exact : Exact α storable) : Canonical α :=
  ⟨fun read => (exact.run_eq_ok.1 read).2⟩

theorem Exact.readsBack (exact : Exact α storable) {x : α} (stored : storable x) : ReadsBack x :=
  fun _ => exact.run_eq_ok.2 ⟨stored, rfl⟩

/-- What is read is stored at the front of the bytes. -/
theorem Exact.read_eq_ok (exact : Exact α storable) {input : List UInt8} {x : α} :
    (read input : Except DecodeFault α) = .ok x ↔ storable x ∧ encode x <+: input := by
  have found : (read input : Except DecodeFault α) = .ok x ↔
      ∃ rest, (decode : Decoder α).run input = .ok (x, rest) := by
    rw [read]
    cases (decode : Decoder α).run input with
    | error fault => simp [Except.map]
    | ok found => simp [Except.map, Prod.ext_iff]
  simp only [found, exact.run_eq_ok, exists_and_left, List.IsPrefix, eq_comm]

end

theorem exact_uint32 : Exact UInt32 fun _ => True :=
  exact_of_readsBack (fun n _ => readsBack_uint32 n) fun _ => trivial

theorem exact_uint64 : Exact UInt64 fun _ => True :=
  exact_of_readsBack (fun n _ => readsBack_uint64 n) fun _ => trivial

instance : Canonical (BitVec 128) :=
  canonical_of_number 16 rfl (fun _ => rfl) fun _ bound => Nat.mod_eq_of_lt bound

theorem exact_bitVec : Exact (BitVec 128) fun _ => True := by
  refine exact_of_readsBack (fun n _ => ?_) fun _ => trivial
  exact readsBack_of_number 16 rfl (fun _ => rfl) n.isLt (BitVec.ofNat_toNat 128 n)

theorem exact_bool : Exact Bool fun _ => True where
  run_eq_ok := by
    intro input rest b
    change (byte >>= fun n => if n = 0 then pure false else if n = 1 then pure true
      else fail (.flag n)).run input = _ ↔ _
    simp only [run_bind_eq_ok, run_byte_eq_ok, true_and]
    constructor
    · rintro ⟨n, later, rfl, found⟩
      split at found
      case isTrue none =>
        obtain ⟨rfl, rfl⟩ := run_pure_eq_ok.1 found
        rw [none]
        rfl
      split at found
      case isTrue one =>
        obtain ⟨rfl, rfl⟩ := run_pure_eq_ok.1 found
        rw [one]
        rfl
      contradiction
    · rintro rfl
      cases b <;> exact ⟨_, rest, rfl, rfl⟩

theorem phase_of_index {n : ℕ} {p : Phase} :
    Phase.all[n]? = some p ↔ n = (phaseIndex p).toNat := by
  match n with
  | 0 | 1 | 2 | 3 => cases p <;> decide
  | n + 4 => cases p <;> simp [Phase.all, phaseIndex]

theorem exact_phase : Exact Phase fun _ => True where
  run_eq_ok := by
    intro input rest p
    constructor
    · intro read
      obtain ⟨index, later, first, found⟩ := run_bind_eq_ok.1 read
      obtain ⟨-, rfl⟩ := exact_uint32.run_eq_ok.1 first
      split at found
      case h_1 q known =>
        obtain ⟨rfl, rfl⟩ := run_pure_eq_ok.1 found
        rw [UInt32.toNat_inj.1 (phase_of_index.1 known)]
        exact ⟨trivial, rfl⟩
      case h_2 => contradiction
    · rintro ⟨-, rfl⟩
      refine run_bind_eq_ok.2 ⟨phaseIndex p, rest, exact_uint32.run_eq_ok.2 ⟨trivial, rfl⟩, ?_⟩
      rw [phase_of_index.2 rfl]
      rfl

/-- Lists whose items are all read are limited by their length alone. -/
theorem exact_list [Binary α] (exact : Exact α fun _ => True) :
    Exact (List α) fun xs => xs.length < UInt64.size := by
  have := exact.canonical
  refine exact_of_readsBack
    (fun xs short => readsBack_list short fun x _ => exact.readsBack trivial) fun read => ?_
  obtain ⟨length, later, first, read⟩ := run_bind_eq_ok.1 read
  obtain ⟨rfl, -⟩ := run_many_eq_ok read
  exact run_decodeLength_lt first

theorem roomy_of_run {xs input rest : List UInt8}
    (h : decodeRoomy.run input = .ok (xs, rest)) : Roomy xs := by
  obtain ⟨length, later, first, h⟩ := run_bind_eq_ok.1 h
  split at h
  case isTrue => contradiction
  split at h
  case isTrue => contradiction
  case isFalse enough =>
    obtain ⟨rfl, -⟩ := run_many_eq_ok h
    exact ⟨run_decodeLength_lt first, Nat.not_le.1 enough⟩

theorem exact_hand : Exact Hand fun h => Roomy h.holes := by
  refine exact_of_readsBack (fun _ => readsBack_hand) fun read => ?_
  obtain ⟨xs, taken, rfl⟩ := run_map_eq_ok.1 read
  exact roomy_of_run taken

theorem exact_packed : Exact Packed fun _ => True :=
  exact_of_readsBack (fun c _ => readsBack_packed c) fun _ => trivial

theorem exact_listed : Exact Listed fun c => Roomy c.colors := by
  refine exact_of_readsBack (fun _ => readsBack_listed) fun read => ?_
  obtain ⟨xs, taken, rfl⟩ := run_map_eq_ok.1 read
  exact roomy_of_run taken

theorem exact_ring : Exact Ring fun r => r.Sound ∧ r.size < memory where
  run_eq_ok := by
    intro input rest r
    constructor
    · intro read
      obtain ⟨fits, form, sound⟩ := Ring.run_decode_eq_ok read
      exact ⟨⟨sound, fits⟩, form⟩
    · rintro ⟨⟨sound, fits⟩, rfl⟩
      exact sound.readsBack fits rest

-- A record is read field by field. Its form is written once more with the rest of the bytes at the
-- end, so that each field stands in front of what follows it.
section Records

theorem exact_config : Exact Config fun _ => True where
  run_eq_ok := by
    intro input rest c
    have form (c : Config) : encode c ++ rest = encode c.holes ++ (encode c.hand ++
        (encode c.colors ++ (encode c.seed ++ rest))) := by
      simp only [← List.append_assoc]
      rfl
    change (decode >>= fun holes => decode >>= fun hand => decode >>= fun colors =>
      decode >>= fun seed => pure (Config.mk holes hand colors seed)).run input = _ ↔ _
    simp only [run_bind_eq_ok, exact_uint64.run_eq_ok, run_pure_eq_ok, true_and, form]
    constructor
    · rintro ⟨holes, _, rfl, hand, _, rfl, colors, _, rfl, seed, _, rfl, rfl, rfl⟩
      rfl
    · rintro rfl
      exact ⟨_, _, rfl, _, _, rfl, _, _, rfl, _, _, rfl, rfl, rfl⟩

theorem exact_checkpoint : Exact Checkpoint fun _ => True where
  run_eq_ok := by
    intro input rest c
    have form (c : Checkpoint) : encode c ++ rest = encode c.seed ++ (encode c.wordPos ++
        (encode c.forks ++ rest)) := by
      simp only [← List.append_assoc]
      rfl
    change (decode >>= fun seed => decode >>= fun wordPos => decode >>= fun forks =>
      pure (Checkpoint.mk seed wordPos forks)).run input = _ ↔ _
    simp only [run_bind_eq_ok, exact_uint64.run_eq_ok, exact_bitVec.run_eq_ok, run_pure_eq_ok,
      true_and, form]
    constructor
    · rintro ⟨seed, _, rfl, wordPos, _, rfl, forks, _, rfl, rfl, rfl⟩
      rfl
    · rintro rfl
      exact ⟨_, _, rfl, _, _, rfl, _, _, rfl, rfl, rfl⟩

theorem exact_stats : Exact Stats fun _ => True where
  run_eq_ok := by
    intro input rest s
    have form (s : Stats) : encode s ++ rest = encode s.iterations ++ (encode s.predecessorCalls ++
        (encode s.initialSize ++ (encode s.finalSize ++ (encode s.micros ++ rest)))) := by
      simp only [← List.append_assoc]
      rfl
    change (decode >>= fun iterations => decode >>= fun calls => decode >>= fun initial =>
      decode >>= fun final => decode >>= fun micros =>
        pure (Stats.mk iterations calls initial final micros)).run input = _ ↔ _
    simp only [run_bind_eq_ok, exact_uint32.run_eq_ok, exact_uint64.run_eq_ok, run_pure_eq_ok,
      true_and, form]
    constructor
    · rintro ⟨iterations, _, rfl, calls, _, rfl, initial, _, rfl, final, _, rfl, micros, _, rfl,
        rfl, rfl⟩
      rfl
    · rintro rfl
      exact ⟨_, _, rfl, _, _, rfl, _, _, rfl, _, _, rfl, _, _, rfl, rfl, rfl⟩

theorem exact_position {C : Type} [Binary C] {storable : C → Prop} (exact : Exact C storable) :
    Exact (Position C) fun p => storable p.coloring ∧ Roomy p.hand.holes where
  run_eq_ok := by
    intro input rest p
    have form (p : Position C) : encode p ++ rest = encode p.coloring ++ (encode p.hand ++ rest) :=
      List.append_assoc ..
    change (decode >>= fun coloring => decode >>= fun hand =>
      pure (Position.mk coloring hand)).run input = _ ↔ _
    simp only [run_bind_eq_ok, exact.run_eq_ok, exact_hand.run_eq_ok, run_pure_eq_ok, form]
    constructor
    · rintro ⟨coloring, _, ⟨stored, rfl⟩, hand, _, ⟨roomy, rfl⟩, rfl, rfl⟩
      exact ⟨⟨stored, roomy⟩, rfl⟩
    · rintro ⟨⟨stored, roomy⟩, rfl⟩
      exact ⟨_, _, ⟨stored, rfl⟩, _, _, ⟨roomy, rfl⟩, rfl, rfl⟩

theorem exact_region : Exact Region fun r => r.bound < UInt64.size where
  run_eq_ok := by
    intro input rest r
    have form (r : Region) :
        encode r ++ rest = encode r.members.toList ++ (encode r.count ++ rest) :=
      List.append_assoc ..
    change (decode >>= fun members : List Bool => decode >>= fun count =>
      pure (Region.mk members.toArray count)).run input = _ ↔ _
    simp only [run_bind_eq_ok, (exact_list exact_bool).run_eq_ok, exact_uint64.run_eq_ok,
      run_pure_eq_ok, true_and, form]
    constructor
    · rintro ⟨members, _, ⟨short, rfl⟩, count, _, rfl, rfl, rfl⟩
      exact ⟨short, rfl⟩
    · rintro ⟨short, rfl⟩
      exact ⟨_, _, ⟨short, rfl⟩, _, _, rfl, rfl, rfl⟩

end Records

end RingLock.Binary
