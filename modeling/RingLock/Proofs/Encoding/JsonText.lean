import Mathlib.Data.List.TakeDrop
import RingLock.Encoding.JsonText

/-!
# JSON texts

The compact text of a value is read back, whatever follows it, as long as that does not go on with a
number. This is so for all values without decimals whose texts and names spell Unicode texts, and
these may hold any characters. The induction follows the writer, and the fuel of the reader is
measured by the text.
-/
namespace RingLock.JsonText

/-- A piece stands for a character: it is the character, or its code. -/
def Piece.StandsFor (p : Piece) (c : Char) : Prop :=
  p = .char c ∨ p = .unit c.toNat ∧ c.toNat < 0x20

theorem hexDigit?_digitChar : ∀ n < 16, hexDigit? (Nat.digitChar n) = some n := by decide

theorem unit?_control {n : ℕ} (h : n < 0x20) :
    unit? '0' '0' (Nat.digitChar (n / 16)) (Nat.digitChar (n % 16)) = some n := by
  have zero : hexDigit? '0' = some 0 := rfl
  have high := hexDigit?_digitChar (n / 16) (by omega)
  have low := hexDigit?_digitChar (n % 16) (by omega)
  have whole : ((0 * 16 + 0) * 16 + n / 16) * 16 + n % 16 = n := by omega
  simp only [unit?, zero, high, low, Option.bind_eq_bind, Option.bind_some, whole]
  rfl

theorem pieces?_printed {c : Char} (quote : c ≠ '"') (backslash : c ≠ '\\')
    (printed : ¬c.toNat < 0x20) (rest : List Char) :
    pieces? (c :: rest) = (pieces? rest).map fun found => (.char c :: found.1, found.2) := by
  rw [pieces?.eq_def]
  split
  case h_5 same =>
    obtain ⟨rfl, rfl⟩ := List.cons.inj same
    rw [if_neg (not_or.2 ⟨printed, backslash⟩)]
    cases pieces? rest <;> rfl
  all_goals simp_all

theorem pieces?_short {e c : Char} (known : shortEscape? e = some c) (rest : List Char) :
    pieces? ('\\' :: e :: rest) =
      (pieces? rest).map fun found => (.char c :: found.1, found.2) := by
  have letter : e ≠ 'u' := by
    rintro rfl
    contradiction
  rw [pieces?.eq_def]
  split
  case h_4 same =>
    obtain ⟨rfl, rfl⟩ := List.cons.inj (List.cons.inj same).2
    rw [known]
    cases pieces? rest <;> rfl
  case h_5 other same =>
    obtain ⟨rfl, rfl⟩ := List.cons.inj same
    exact absurd rfl (other e rest rfl)
  all_goals simp_all

/-- A character between quotes is read as one piece. -/
theorem pieces?_escape (c : Char) : ∃ p : Piece, p.StandsFor c ∧ ∀ rest,
    pieces? (Json.escape c ++ rest) = (pieces? rest).map fun found => (p :: found.1, found.2) := by
  unfold Json.escape
  split
  case h_8 quote backslash _ _ _ _ _ =>
    split
    case isTrue control =>
      refine ⟨.unit c.toNat, .inr ⟨rfl, control⟩, fun rest => ?_⟩
      simp only [List.cons_append, List.nil_append, pieces?, unit?_control control]
      cases pieces? rest <;> rfl
    case isFalse printed => exact ⟨.char c, .inl rfl, pieces?_printed quote backslash printed⟩
  all_goals exact ⟨.char _, .inl rfl, pieces?_short rfl⟩

/-- A code that is no half of a pair is a character. -/
theorem join?_unit {n : ℕ} (high : isHigh n = false) (low : isLow n = false) (ps : List Piece) :
    join? (.unit n :: ps) = (join? ps).map (Char.ofNat n :: ·) := by
  rw [join?.eq_def]
  split <;> simp_all

theorem join?_of_standsFor {p : Piece} {c : Char} (h : p.StandsFor c) (ps : List Piece) :
    join? (p :: ps) = (join? ps).map (c :: ·) := by
  rcases h with rfl | ⟨rfl, control⟩
  · rw [join?]
  · rw [join?_unit, Char.ofNat_toNat]
    all_goals simp only [isHigh, isLow, Bool.and_eq_false_iff, decide_eq_false_iff_not]; omega

theorem pieces?_text (cs rest : List Char) : ∃ ps,
    pieces? (cs.flatMap Json.escape ++ '"' :: rest) = some (ps, rest) ∧ join? ps = some cs := by
  induction cs with
  | nil => exact ⟨[], rfl, rfl⟩
  | cons c cs ih =>
    obtain ⟨ps, read, joined⟩ := ih
    obtain ⟨p, stands, reads⟩ := pieces?_escape c
    refine ⟨p :: ps, ?_, ?_⟩
    · rw [List.flatMap_cons, List.append_assoc, reads, read]
      rfl
    · rw [join?_of_standsFor stands, joined]
      rfl

/-- A quoted text is read back, whatever characters it has. -/
theorem text?_quote (s : String) (rest : List Char) :
    text? (s.toList.flatMap Json.escape ++ '"' :: rest) = some (some s, rest) := by
  obtain ⟨ps, read, joined⟩ := pieces?_text s.toList rest
  have text : (join? ps).map String.ofList = some s := by
    rw [joined, Option.map_some, String.ofList_toList]
  rw [text?, read, Option.map_some]
  exact congrArg (fun value => some (value, rest)) text

/-- What follows a number and is no part of it. -/
def EndsNumber (rest : List Char) : Prop :=
  ∀ c ∈ rest.head?, c.isDigit = false ∧ c ≠ '.' ∧ c ≠ 'e' ∧ c ≠ 'E'

theorem span_digits {ds rest : List Char} (digits : ∀ d ∈ ds, d.isDigit) (ends : EndsNumber rest) :
    (ds ++ rest).span Char.isDigit = (ds, rest) := by
  rw [List.span_eq_takeWhile_dropWhile, List.takeWhile_append_of_pos digits,
    List.dropWhile_append_of_pos digits]
  cases rest with
  | nil => simp
  | cons c rest => simp [(ends c rfl).1]

theorem isDigit_of_mem_toDigits {n : ℕ} : ∀ d ∈ Nat.toDigits 10 n, d.isDigit :=
  fun _ member => Nat.isDigit_of_mem_toDigits (by decide) (by decide) member

theorem exists_toDigits (n : ℕ) : ∃ c tail, Nat.toDigits 10 n = c :: tail ∧ c.isDigit := by
  obtain ⟨c, tail, digits⟩ := List.exists_cons_of_ne_nil (Nat.toDigits_ne_nil (n := n) (b := 10))
  exact ⟨c, tail, digits, isDigit_of_mem_toDigits c (digits ▸ List.mem_cons_self)⟩

theorem digits?_toDigits (n : ℕ) {rest : List Char} (ends : EndsNumber rest) :
    digits? (Nat.toDigits 10 n ++ rest) = some (Nat.toDigits 10 n, rest) := by
  rw [digits?, span_digits isDigit_of_mem_toDigits ends]
  split
  case h_1 empty => exact absurd (Prod.mk.inj empty).1 Nat.toDigits_ne_nil
  case h_2 => rfl

theorem digitsValue_toDigits (n : ℕ) : digitsValue (Nat.toDigits 10 n) = n := by
  have value := Nat.ofDigitChars_ten_toDigits (n := n)
  rwa [Nat.ofDigitChars_eq_foldl] at value

/-- Only zero begins with the digit zero. -/
theorem head_toDigits {n : ℕ} (h : (Nat.toDigits 10 n).head? = some '0') : n = 0 := by
  induction n using Nat.strongRecOn with
  | ind n ih =>
    by_cases small : n < 10
    · rw [Nat.toDigits_of_lt_base small] at h
      exact Nat.digitChar_eq_zero.1 (Option.some.inj h)
    · rw [Nat.toDigits_of_base_le (by decide) (by omega),
        List.head?_append, Option.or_of_isSome (by simp [Nat.toDigits_ne_nil])] at h
      have := ih (n / 10) (by omega) h
      omega

theorem magnitude?_toDigits (negative : Bool) {n : ℕ} (nonzero : negative → n ≠ 0)
    {rest : List Char} (ends : EndsNumber rest) :
    magnitude? negative (Nat.toDigits 10 n ++ rest) =
      some (.integer (if negative then -(n : Int) else n), rest) := by
  have leading : ¬((Nat.toDigits 10 n).head? = some '0' ∧ (Nat.toDigits 10 n).length ≠ 1) := by
    rintro ⟨zero, long⟩
    rw [head_toDigits zero] at long
    exact long rfl
  have part : fraction? rest = some ([], rest) := by
    cases rest with
    | nil => rfl
    | cons c rest =>
      have := (ends c rfl).2.1
      unfold fraction?
      split <;> simp_all
  have power : exponent? rest = some (none, rest) := by
    cases rest with
    | nil => rfl
    | cons c rest => simp [exponent?, (ends c rfl).2.2.1, (ends c rfl).2.2.2]
  simp only [magnitude?, digits?_toDigits n ends, part, power, Option.bind_eq_bind,
    Option.bind_some, if_neg leading, List.append_nil, digitsValue_toDigits]
  cases negative <;> simp_all

theorem toString_ofNat (n : ℕ) : (toString (Int.ofNat n)).toList = Nat.toDigits 10 n := by
  rw [Int.toString_eq_repr]
  exact Nat.toList_repr

theorem toString_negSucc (n : ℕ) :
    (toString (Int.negSucc n)).toList = '-' :: Nat.toDigits 10 (n + 1) := by
  rw [Int.toString_eq_repr]
  change ("-" ++ (n + 1).repr).toList = _
  rw [String.toList_append, Nat.toList_repr]
  rfl

/-- What begins a value of JSON: no blank, and no end of a list or record. -/
def Begins (c : Char) : Prop := isBlank c = false ∧ c ≠ ']' ∧ c ≠ '\x7d'

instance (c : Char) : Decidable (Begins c) := inferInstanceAs (Decidable (_ ∧ _))

theorem begins_of_isDigit {c : Char} (digit : c.isDigit) : Begins c := by
  refine ⟨?_, ?_, ?_⟩
  · simp only [isBlank, Bool.or_eq_false_iff, beq_eq_false_iff_ne]
    refine ⟨⟨⟨?_, ?_⟩, ?_⟩, ?_⟩ <;> (rintro rfl; contradiction)
  all_goals (rintro rfl; contradiction)

end RingLock.JsonText

namespace RingLock.Json

open JsonText

mutual

/-- The compact text tells all of the value: there are no decimals, and all texts and names spell a
text. -/
def Exact : Json → Prop
  | .null => True
  | .bool _ => True
  | .integer _ => True
  | .decimal _ => False
  | .text value => value.isSome
  | .list items => ExactItems items
  | .record fields => ExactFields fields

def ExactItems : List Json → Prop
  | [] => True
  | x :: rest => x.Exact ∧ ExactItems rest

def ExactFields : List (Option String × Json) → Prop
  | [] => True
  | (name, x) :: rest => name.isSome ∧ x.Exact ∧ ExactFields rest

end

theorem exactItems_iff {items : List Json} : ExactItems items ↔ ∀ x ∈ items, x.Exact := by
  induction items with
  | nil => simp [ExactItems]
  | cons x items ih => simp [ExactItems, ih]

theorem exact_ofFields {fields : List (String × Json)} :
    (ofFields fields).Exact ↔ ∀ f ∈ fields, f.2.Exact := by
  rw [ofFields, Exact]
  induction fields with
  | nil => simp [ExactFields]
  | cons f fields ih => simp [ExactFields, ih]

/-- A number is a digit, or a minus and then a digit. -/
theorem exists_toString (n : Int) : ∃ c tail, (toString n).toList = c :: tail ∧
    (c = '-' ∨ c.isDigit) := by
  cases n with
  | ofNat n =>
    obtain ⟨c, tail, digits, digit⟩ := exists_toDigits n
    exact ⟨c, tail, (toString_ofNat n).trans digits, .inr digit⟩
  | negSucc n => exact ⟨_, _, toString_negSucc n, .inl rfl⟩

theorem exists_render {j : Json} (exact : j.Exact) : ∃ c tail, j.render = c :: tail ∧ Begins c := by
  cases j with
  | null => exact ⟨'n', _, rfl, by decide⟩
  | bool b =>
    cases b with
    | false => exact ⟨'f', _, rfl, by decide⟩
    | true => exact ⟨'t', _, rfl, by decide⟩
  | integer n =>
    obtain ⟨c, tail, form, begins⟩ := exists_toString n
    exact ⟨c, tail, form, begins.elim (by rintro rfl; decide) begins_of_isDigit⟩
  | decimal d => exact exact.elim
  | text value => exact ⟨'"', _, rfl, by decide⟩
  | list items => exact ⟨'[', _, rfl, by decide⟩
  | record fields => exact ⟨'\x7b', _, rfl, by decide⟩

end RingLock.Json

namespace RingLock.JsonText

open Json

theorem skipBlanks_begins {c : Char} (begins : Begins c) (tail : List Char) :
    skipBlanks (c :: tail) = c :: tail :=
  List.dropWhile_cons_of_neg (by simp [begins.1])

theorem number?_toString (n : Int) {rest : List Char} (ends : EndsNumber rest) :
    number? ((toString n).toList ++ rest) = some (.integer n, rest) := by
  cases n with
  | ofNat n =>
    rw [toString_ofNat]
    have read := magnitude?_toDigits false (n := n) nofun ends
    rw [number?.eq_def]
    split
    case h_1 signed =>
      obtain ⟨c, tail, digits, digit⟩ := exists_toDigits n
      rw [digits] at signed
      obtain ⟨rfl, -⟩ := List.cons.inj signed
      contradiction
    case h_2 => exact read
  | negSucc n =>
    rw [toString_negSucc]
    exact magnitude?_toDigits true (fun _ => Nat.succ_ne_zero n) ends

theorem value?_number {c : Char} (h : c = '-' ∨ c.isDigit) (fuel : ℕ) (tail : List Char) :
    value? (fuel + 1) (c :: tail) = number? (c :: tail) := by
  have begins : Begins c := h.elim (by rintro rfl; decide) begins_of_isDigit
  rw [value?.eq_def]
  simp only [skipBlanks_begins begins]
  split
  case h_7 => rfl
  all_goals
    rename_i same
    obtain ⟨rfl, -⟩ := List.cons.inj same
    rcases h with h | h <;> contradiction

theorem endsNumber_cons {c : Char} (h : c.isDigit = false ∧ c ≠ '.' ∧ c ≠ 'e' ∧ c ≠ 'E')
    (rest : List Char) : EndsNumber (c :: rest) := by
  intro d same
  obtain rfl := Option.some.inj same
  exact h

theorem length_render_pos {j : Json} (exact : j.Exact) : 0 < j.render.length := by
  obtain ⟨c, tail, form, -⟩ := exists_render exact
  simp [form]

theorem renderItems_cons_cons (x y : Json) (items : List Json) :
    renderItems (x :: y :: items) = x.render ++ ',' :: renderItems (y :: items) := by
  rw [renderItems]
  exact nofun

theorem renderFields_cons_cons (name : Option String) (x : Json) (f : Option String × Json)
    (fields : List (Option String × Json)) : renderFields ((name, x) :: f :: fields) =
      quote (name.getD "") ++ ':' :: x.render ++ ',' :: renderFields (f :: fields) := by
  rw [renderFields]
  exact nofun

theorem exists_renderItems {x : Json} (exact : x.Exact) (items : List Json) :
    ∃ c tail, renderItems (x :: items) = c :: tail ∧ Begins c := by
  obtain ⟨c, tail, form, begins⟩ := exists_render exact
  cases items with
  | nil => exact ⟨c, tail ++ [']'], by rw [renderItems, form]; rfl, begins⟩
  | cons y items =>
    exact ⟨c, tail ++ ',' :: renderItems (y :: items), by rw [renderItems_cons_cons, form]; rfl,
      begins⟩

theorem exists_renderFields (name : Option String) (x : Json)
    (fields : List (Option String × Json)) :
    ∃ c tail, renderFields ((name, x) :: fields) = c :: tail ∧ Begins c := by
  cases fields with
  | nil => exact ⟨'"', _, rfl, by decide⟩
  | cons f fields => exact ⟨'"', _, renderFields_cons_cons .., by decide⟩

section Readers

variable {fuel : ℕ} {cs later rest : List Char} {x : Json}

theorem value?_items {c : Char} (begins : Begins c) (fuel : ℕ) (tail : List Char) :
    value? (fuel + 1) ('[' :: c :: tail) =
      (items? fuel (c :: tail)).map fun found => (.list found.1, found.2) := by
  rw [value?, skipBlanks_begins (by decide)]
  simp only [skipBlanks_begins begins]
  split
  case h_1 same => exact absurd (List.cons.inj same).1 begins.2.1
  case h_2 => rfl

theorem value?_fields {c : Char} (begins : Begins c) (fuel : ℕ) (tail : List Char) :
    value? (fuel + 1) ('\x7b' :: c :: tail) =
      (fields? fuel (c :: tail)).map fun found => (.record found.1, found.2) := by
  rw [value?, skipBlanks_begins (by decide)]
  simp only [skipBlanks_begins begins]
  split
  case h_1 same => exact absurd (List.cons.inj same).1 begins.2.2
  case h_2 => rfl

theorem items?_last (read : value? fuel cs = some (x, ']' :: rest)) :
    items? (fuel + 1) cs = some ([x], rest) := by
  rw [items?, read]
  rfl

theorem items?_more {xs : List Json} (first : value? fuel cs = some (x, ',' :: later))
    (others : items? fuel later = some (xs, rest)) :
    items? (fuel + 1) cs = some (x :: xs, rest) := by
  rw [items?, first]
  change (items? fuel later).bind _ = _
  rw [others]
  rfl

theorem fields?_last (s : String) (read : value? fuel cs = some (x, '\x7d' :: rest)) :
    fields? (fuel + 1) (quote s ++ ':' :: cs) = some ([(some s, x)], rest) := by
  have name := text?_quote s (':' :: cs)
  simp only [quote, List.cons_append, List.append_assoc, List.nil_append]
  rw [fields?, skipBlanks_begins (by decide)]
  change (text? _).bind _ = _
  rw [name]
  change (value? fuel cs).bind _ = _
  rw [read]
  rfl

theorem fields?_more (s : String) {fs : List (Option String × Json)}
    (first : value? fuel cs = some (x, ',' :: later))
    (others : fields? fuel later = some (fs, rest)) :
    fields? (fuel + 1) (quote s ++ ':' :: cs) = some ((some s, x) :: fs, rest) := by
  have name := text?_quote s (':' :: cs)
  simp only [quote, List.cons_append, List.append_assoc, List.nil_append]
  rw [fields?, skipBlanks_begins (by decide)]
  change (text? _).bind _ = _
  rw [name]
  change (value? fuel cs).bind _ = _
  rw [first]
  change (fields? fuel later).bind _ = _
  rw [others]
  rfl

end Readers

-- The induction is on the value. A list costs the reader one step for its bracket and one for each
-- item beside what the item costs, and its text has a character for each of these, so twice the
-- length of the text is always enough for what is left.
mutual

/-- The text of a value is read back, and what follows it is left. -/
theorem value?_render : ∀ (j : Json) (fuel : ℕ) (rest : List Char), j.Exact →
    2 * j.render.length ≤ fuel → EndsNumber rest →
      value? fuel (j.render ++ rest) = some (j, rest)
  | j, 0, _, exact, enough, _ => by
    have := length_render_pos exact
    omega
  | .null, fuel + 1, rest, _, _, _ => rfl
  | .bool true, fuel + 1, rest, _, _, _ => rfl
  | .bool false, fuel + 1, rest, _, _, _ => rfl
  | .integer n, fuel + 1, rest, _, _, ends => by
    obtain ⟨c, tail, form, begins⟩ := exists_toString n
    have read := number?_toString n ends
    rw [form] at read
    rw [render, form]
    exact (value?_number begins fuel _).trans read
  | .text none, _, _, exact, _, _ => absurd exact nofun
  | .text (some s), fuel + 1, rest, _, _, _ => by
    have read := text?_quote s rest
    simp only [render, quote, Option.getD_some, List.cons_append, List.append_assoc,
      List.nil_append]
    rw [value?, skipBlanks_begins (by decide)]
    simp only [read, Option.map_some]
  | .list [], fuel + 1, rest, _, _, _ => rfl
  | .list (x :: items), fuel + 1, rest, exact, enough, _ => by
    rw [render, List.length_cons] at enough
    have read := items?_render x items fuel rest exact.1 exact.2 (by omega)
    obtain ⟨c, tail, form, begins⟩ := exists_renderItems exact.1 items
    rw [render, List.cons_append]
    rw [form, List.cons_append] at read ⊢
    rw [value?_items begins, read]
    rfl
  | .record [], fuel + 1, rest, _, _, _ => rfl
  | .record ((some name, x) :: fields), fuel + 1, rest, exact, enough, _ => by
    rw [render, List.length_cons] at enough
    have read := fields?_render name x fields fuel rest exact.2.1 exact.2.2 (by omega)
    obtain ⟨c, tail, form, begins⟩ := exists_renderFields (some name) x fields
    rw [render, List.cons_append]
    rw [form, List.cons_append] at read ⊢
    rw [value?_fields begins, read]
    rfl
  | .record ((none, _) :: _), _ + 1, _, exact, _, _ => absurd exact.1 nofun

theorem items?_render : ∀ (x : Json) (items : List Json) (fuel : ℕ) (rest : List Char), x.Exact →
    ExactItems items → 2 * (renderItems (x :: items)).length ≤ fuel →
      items? fuel (renderItems (x :: items) ++ rest) = some (x :: items, rest)
  | x, items, 0, rest, exact, _, enough => by
    obtain ⟨c, tail, form, -⟩ := exists_renderItems exact items
    rw [form, List.length_cons] at enough
    omega
  | x, [], fuel + 1, rest, exact, _, enough => by
    rw [renderItems, List.length_append, List.length_singleton] at enough
    rw [renderItems, List.append_assoc]
    apply items?_last
    exact value?_render x fuel _ exact (by omega) (endsNumber_cons (by decide) rest)
  | x, y :: items, fuel + 1, rest, exact, exacts, enough => by
    rw [renderItems_cons_cons, List.length_append, List.length_cons] at enough
    have others := items?_render y items fuel rest exacts.1 exacts.2 (by omega)
    rw [renderItems_cons_cons, List.append_assoc, List.cons_append]
    refine items?_more ?_ others
    exact value?_render x fuel _ exact (by omega) (endsNumber_cons (by decide) _)

theorem fields?_render : ∀ (name : String) (x : Json) (fields : List (Option String × Json))
    (fuel : ℕ) (rest : List Char), x.Exact → ExactFields fields →
      2 * (renderFields ((some name, x) :: fields)).length ≤ fuel →
        fields? fuel (renderFields ((some name, x) :: fields) ++ rest) =
          some ((some name, x) :: fields, rest)
  | name, x, fields, 0, rest, exact, _, enough => by
    obtain ⟨c, tail, form, -⟩ := exists_renderFields (some name) x fields
    rw [form, List.length_cons] at enough
    omega
  | name, x, [], fuel + 1, rest, exact, _, enough => by
    simp only [renderFields, List.length_append, List.length_cons] at enough
    simp only [renderFields, List.append_assoc, List.cons_append]
    apply fields?_last
    exact value?_render x fuel _ exact (by omega) (endsNumber_cons (by decide) rest)
  | name, x, (some next, y) :: fields, fuel + 1, rest, exact, exacts, enough => by
    simp only [renderFields_cons_cons, List.length_append, List.length_cons] at enough
    have others := fields?_render next y fields fuel rest exacts.2.1 exacts.2.2 (by omega)
    simp only [renderFields_cons_cons, List.append_assoc, List.cons_append]
    refine fields?_more name ?_ others
    exact value?_render x fuel _ exact (by omega) (endsNumber_cons (by decide) _)
  | _, _, (none, _) :: _, _ + 1, _, _, exacts, _ => absurd exacts.1 nofun

end

/-- A value is read back from its text, unless it has a decimal or a text that spells nothing. -/
theorem parse?_toString {j : Json} (exact : j.Exact) : parse? (toString j) = some j := by
  have read := value?_render j (2 * j.render.length + 2) [] exact (by omega) nofun
  have chars : (toString j).toList = j.render := String.toList_ofList
  rw [List.append_nil] at read
  rw [parse?, chars]
  change (value? _ _).bind _ = _
  rw [read]
  rfl

end RingLock.JsonText
