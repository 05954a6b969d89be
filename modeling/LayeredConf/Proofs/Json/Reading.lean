import LayeredConf.Proofs.Json.Numbers
import LayeredConf.Proofs.Json.Quoted
import LayeredConf.Proofs.Record

/-!
# JSON text reads back

The text of any JSON value is JSON text, and reads as the value but for what text cannot hold: a
negative zero, a number that is not finite, and an order of fields other than that of a record.

    asRead v             the value that the text of `v` stands for
    readValue?_chars     the text is read up to where no more of the value can follow
    read?_print          read? v.print = some v.asRead
-/

namespace LayeredConf.Json

open Decimal

mutual

/-- The value that the text of a value stands for. -/
def asRead : Json → Json
  | .null => .null
  | .bool b => .bool b
  | .number x => if x.isFinite then .number x.unsignZero else .null
  | .text s => .text s
  | .array items => .array (asReadItems items)
  | .object fields => .object (Record.ofPairs (asReadFields fields))

def asReadItems : List Json → List Json
  | [] => []
  | v :: vs => asRead v :: asReadItems vs

def asReadFields : List (String × Json) → List (String × Json)
  | [] => []
  | (name, v) :: fs => (name, asRead v) :: asReadFields fs

end

/-! ## How a value begins -/

theorem skipSpaces_cons {c : Char} (hc : isSpace c = false) (r : List Char) :
    skipSpaces (c :: r) = c :: r := by
  rw [skipSpaces, List.dropWhile_cons_of_neg (by simp [hc])]

theorem isSpace_of_head {c : Char} (hc : c.isDigit ∨ c = '-') : isSpace c = false := by
  have hne (d : Char) (hd : ¬ (d.isDigit ∨ d = '-')) : c ≠ d := by
    rintro rfl
    exact hd hc
  simp [isSpace, hne ' ' (by decide), hne '\t' (by decide), hne '\n' (by decide),
    hne '\r' (by decide)]

theorem readValue?_of_head {c : Char} (hc : c.isDigit ∨ c = '-') (fuel : Nat) (r : List Char) :
    readValue? (fuel + 1) (c :: r) = readNumber? (c :: r) := by
  have hne (d : Char) (hd : ¬ (d.isDigit ∨ d = '-')) (r' : List Char) : c :: r ≠ d :: r' := by
    intro he
    obtain rfl := (List.cons.inj he).1
    exact hd hc
  rw [readValue?, skipSpaces_cons (isSpace_of_head hc)]
  split
  case h_7 => rfl
  all_goals next he => exact absurd he (hne _ (by decide) _)

theorem exists_head_number {x : Number} (hx : x.isFinite = true) :
    ∃ c r, x.chars = c :: r ∧ (c.isDigit ∨ c = '-') := by
  obtain ⟨negative, text, d, hchars, hspells, -⟩ := exists_spells_chars hx
  obtain ⟨c, r, rfl, hc⟩ := spells_head hspells
  rw [hchars]
  cases negative with
  | true => exact ⟨'-', c :: r, rfl, Or.inr rfl⟩
  | false => exact ⟨c, r, rfl, Or.inl hc⟩

/-- A value does not begin with a blank or with a closing bracket. -/
theorem exists_head_chars (v : Json) :
    ∃ c r, v.chars = c :: r ∧ isSpace c = false ∧ c ≠ ']' := by
  cases v with
  | null => exact ⟨'n', _, rfl, rfl, by decide⟩
  | bool b =>
    cases b with
    | true => exact ⟨'t', _, rfl, rfl, by decide⟩
    | false => exact ⟨'f', _, rfl, rfl, by decide⟩
  | number x =>
    rw [chars, numberChars]
    split
    · next hx =>
      obtain ⟨c, r, hr, hc⟩ := exists_head_number hx
      refine ⟨c, r, hr, isSpace_of_head hc, ?_⟩
      rintro rfl
      exact absurd hc (by decide)
    · exact ⟨'n', _, rfl, rfl, by decide⟩
  | text s => exact ⟨'"', _, by rw [chars, quoteChars], rfl, by decide⟩
  | array items => exact ⟨'[', _, by rw [chars], rfl, by decide⟩
  | object fields => exact ⟨'\x7b', _, by rw [chars], rfl, by decide⟩

theorem exists_head_items (v : Json) (vs : List Json) :
    ∃ c r, [','].intercalate (itemChars (v :: vs)) = c :: r ∧ isSpace c = false ∧ c ≠ ']' := by
  obtain ⟨c, r, hhead, hspace, hc⟩ := exists_head_chars v
  cases vs with
  | nil =>
    rw [itemChars, itemChars, List.intercalate_singleton]
    exact ⟨c, r, hhead, hspace, hc⟩
  | cons w vs =>
    rw [itemChars, itemChars, List.intercalate_cons_cons, hhead]
    exact ⟨c, _, rfl, hspace, hc⟩

theorem exists_head_fields (name : String) (v : Json) (fs : List (String × Json)) :
    ∃ r, [','].intercalate (fieldChars ((name, v) :: fs)) = '"' :: r := by
  cases fs with
  | nil =>
    rw [fieldChars, fieldChars, List.intercalate_singleton]
    exact ⟨_, rfl⟩
  | cons f fs =>
    rw [fieldChars, fieldChars, List.intercalate_cons_cons]
    exact ⟨_, rfl⟩

/-! ## Reading a value -/

theorem closed_nil : Closed [] := fun _ hc => nomatch hc

theorem closed_cons {c : Char} (hc : ¬ c.isDigit ∧ c ≠ '.' ∧ c ≠ 'e' ∧ c ≠ 'E') (r : List Char) :
    Closed (c :: r) := by
  intro d hd
  obtain rfl := Option.some.inj hd
  exact hc

theorem readValue?_null (fuel : Nat) (rest : List Char) :
    readValue? (fuel + 1) ("null".toList ++ rest) = some (.null, rest) := by
  simp [readValue?, skipSpaces, isSpace, readWord?]

theorem readValue?_text (s : String) (fuel : Nat) (rest : List Char) :
    readValue? (fuel + 1) (quoteChars s.toList ++ rest) = some (.text s, rest) := by
  have hread : readValue? (fuel + 1) ('"' :: (s.toList.flatMap quoteChar ++ '"' :: rest)) =
      (readQuoted? (s.toList.flatMap quoteChar ++ '"' :: rest)).map
        fun p => (.text (String.ofList p.1), p.2) := by
    rw [readValue?, skipSpaces_cons rfl]
    rfl
  rw [readQuoted?_flatMap, Option.map_some] at hread
  dsimp only at hread
  rw [String.ofList_toList] at hread
  rwa [quoteChars, List.cons_append, List.append_assoc, List.singleton_append]

theorem readValue?_empty_array (fuel : Nat) (rest : List Char) :
    readValue? (fuel + 1) ('[' :: ']' :: rest) = some (.array [], rest) := by
  rw [readValue?, skipSpaces_cons rfl]
  rfl

theorem readValue?_array {c : Char} (hspace : isSpace c = false) (hc : c ≠ ']') (fuel : Nat)
    (r : List Char) : readValue? (fuel + 1) ('[' :: c :: r) =
      (readItems? fuel (c :: r)).map fun (vs, r) => (.array vs, r) := by
  rw [readValue?, skipSpaces_cons rfl]
  simp only [skipSpaces_cons hspace]
  split
  · next he => exact absurd (List.cons.inj he).1 hc
  · rfl

theorem readValue?_empty_object (fuel : Nat) (rest : List Char) :
    readValue? (fuel + 1) ('\x7b' :: '\x7d' :: rest) = some (.object [], rest) := by
  rw [readValue?, skipSpaces_cons rfl]
  rfl

theorem readValue?_object (fuel : Nat) (r : List Char) :
    readValue? (fuel + 1) ('\x7b' :: '"' :: r) =
      (readFields? fuel ('"' :: r)).map fun (fs, r) => (.object (Record.ofPairs fs), r) := by
  rw [readValue?, skipSpaces_cons rfl]
  rfl

section

variable {fuel : Nat} {s r : List Char} {v : Json}

theorem readItems?_last (h : readValue? fuel s = some (v, ']' :: r)) :
    readItems? (fuel + 1) s = some ([v], r) := by
  rw [readItems?, h]
  rfl

theorem readItems?_more (h : readValue? fuel s = some (v, ',' :: r)) :
    readItems? (fuel + 1) s = (readItems? fuel r).map fun (vs, r) => (v :: vs, r) := by
  rw [readItems?, h]
  rfl

/-- A field with a value, and the fields in what follows it. -/
def fieldsFrom (fuel : Nat) (name : String) (v : Json) (s : List Char) :
    Option (List (String × Json) × List Char) :=
  match skipSpaces s with
  | ',' :: r => (readFields? fuel r).map fun (fs, r) => ((name, v) :: fs, r)
  | '\x7d' :: r => some ([(name, v)], r)
  | _ => none

/-- A name and a colon are read before the value of a field. -/
theorem readFields?_name (name : String) :
    readFields? (fuel + 1) (quoteChars name.toList ++ ':' :: s) =
      (readValue? fuel s).bind fun p => fieldsFrom fuel name p.1 p.2 := by
  rw [quoteChars, List.cons_append, readFields?, skipSpaces_cons rfl, List.append_assoc,
    List.singleton_append]
  simp only [readQuoted?_flatMap, skipSpaces_cons (c := ':') rfl, String.ofList_toList]
  cases readValue? fuel s <;> rfl

theorem readFields?_last (name : String) (h : readValue? fuel s = some (v, '\x7d' :: r)) :
    readFields? (fuel + 1) (quoteChars name.toList ++ ':' :: s) = some ([(name, v)], r) := by
  rw [readFields?_name, h]
  rfl

theorem readFields?_more (name : String) (h : readValue? fuel s = some (v, ',' :: r)) :
    readFields? (fuel + 1) (quoteChars name.toList ++ ':' :: s) =
      (readFields? fuel r).map fun (fs, r) => ((name, v) :: fs, r) := by
  rw [readFields?_name, h]
  rfl

end

mutual

theorem readValue?_chars (v : Json) (fuel : Nat) (rest : List Char)
    (hfuel : 2 * v.chars.length ≤ fuel) (hrest : Closed rest) :
    readValue? fuel (v.chars ++ rest) = some (v.asRead, rest) := by
  obtain ⟨_, _, hhead, -, -⟩ := exists_head_chars v
  obtain ⟨fuel, rfl⟩ : ∃ k, fuel = k + 1 := ⟨fuel - 1, by simp [hhead] at hfuel; omega⟩
  cases v with
  | null => exact readValue?_null fuel rest
  | bool b => cases b <;> simp [chars, asRead, readValue?, skipSpaces, isSpace, readWord?]
  | number x =>
    rw [chars, numberChars, asRead]
    split
    · next hx =>
      obtain ⟨c, r, hr, hc⟩ := exists_head_number hx
      rw [← readNumber?_chars hx hrest, hr]
      exact readValue?_of_head hc fuel (r ++ rest)
    · exact readValue?_null fuel rest
  | text s =>
    rw [chars, asRead]
    exact readValue?_text s fuel rest
  | array items =>
    rw [chars] at hfuel ⊢
    cases items with
    | nil => exact readValue?_empty_array fuel rest
    | cons w vs =>
      have hitems := readItems?_chars w vs fuel rest (by simp at hfuel; omega)
      obtain ⟨c, r, hhead, hspace, hc⟩ := exists_head_items w vs
      rw [List.cons_append, List.append_assoc, List.singleton_append]
      rw [hhead] at hitems ⊢
      rw [List.cons_append] at hitems ⊢
      rw [readValue?_array hspace hc, hitems]
      rfl
  | object fields =>
    rw [chars] at hfuel ⊢
    cases fields with
    | nil =>
      rw [asRead, asReadFields, Record.ofPairs_eq_self (by simp) (by simp [Record.IndexesFirst])]
      exact readValue?_empty_object fuel rest
    | cons f fs =>
      obtain ⟨name, w⟩ := f
      have hfields := readFields?_chars name w fs fuel rest (by simp at hfuel; omega)
      obtain ⟨r, hhead⟩ := exists_head_fields name w fs
      rw [List.cons_append, List.append_assoc, List.singleton_append]
      rw [hhead] at hfields ⊢
      rw [List.cons_append] at hfields ⊢
      rw [readValue?_object, hfields]
      rfl
termination_by fuel

theorem readItems?_chars (v : Json) (vs : List Json) (fuel : Nat) (rest : List Char)
    (hfuel : 2 * ([','].intercalate (itemChars (v :: vs))).length < fuel) :
    readItems? fuel ([','].intercalate (itemChars (v :: vs)) ++ ']' :: rest) =
      some (asReadItems (v :: vs), rest) := by
  obtain ⟨fuel, rfl⟩ : ∃ k, fuel = k + 1 := ⟨fuel - 1, by omega⟩
  cases vs with
  | nil =>
    rw [itemChars, itemChars, List.intercalate_singleton] at hfuel ⊢
    exact readItems?_last
      (readValue?_chars v fuel (']' :: rest) (by omega) (closed_cons (by decide) rest))
  | cons w vs =>
    rw [itemChars, itemChars, List.intercalate_cons_cons, ← itemChars] at hfuel ⊢
    rw [List.append_assoc, List.append_assoc, List.singleton_append]
    simp only [List.length_append, List.length_singleton] at hfuel
    have hv := readValue?_chars v fuel
      (',' :: ([','].intercalate (itemChars (w :: vs)) ++ ']' :: rest)) (by omega)
      (closed_cons (by decide) _)
    rw [readItems?_more hv, readItems?_chars w vs fuel rest (by omega)]
    rfl
termination_by fuel

theorem readFields?_chars (name : String) (v : Json) (fs : List (String × Json)) (fuel : Nat)
    (rest : List Char)
    (hfuel : 2 * ([','].intercalate (fieldChars ((name, v) :: fs))).length < fuel) :
    readFields? fuel ([','].intercalate (fieldChars ((name, v) :: fs)) ++ '\x7d' :: rest) =
      some (asReadFields ((name, v) :: fs), rest) := by
  obtain ⟨fuel, rfl⟩ : ∃ k, fuel = k + 1 := ⟨fuel - 1, by omega⟩
  cases fs with
  | nil =>
    rw [fieldChars, fieldChars, List.intercalate_singleton] at hfuel ⊢
    rw [List.append_assoc, List.cons_append]
    simp only [List.length_append, List.length_cons] at hfuel
    exact readFields?_last name
      (readValue?_chars v fuel ('\x7d' :: rest) (by omega) (closed_cons (by decide) rest))
  | cons f fs =>
    obtain ⟨name', w⟩ := f
    rw [fieldChars, fieldChars, List.intercalate_cons_cons, ← fieldChars] at hfuel ⊢
    rw [List.append_assoc, List.append_assoc, List.append_assoc, List.singleton_append,
      List.cons_append]
    simp only [List.length_append, List.length_cons, List.length_nil] at hfuel
    have hv := readValue?_chars v fuel
      (',' :: ([','].intercalate (fieldChars ((name', w) :: fs)) ++ '\x7d' :: rest)) (by omega)
      (closed_cons (by decide) _)
    rw [readFields?_more name hv, readFields?_chars name' w fs fuel rest (by omega)]
    rfl
termination_by fuel

end

/-- **The text of a value is read as the value it stands for.** -/
theorem read?_print (v : Json) : read? v.print = some v.asRead := by
  have hread := readValue?_chars v (2 * v.chars.length + 2) [] (by omega) closed_nil
  rw [List.append_nil] at hread
  rw [read?, print, String.toList_ofList]
  simp only [hread]
  rfl

end LayeredConf.Json
