import LayeredConf.Load.Entry
import LayeredConf.Proofs.Text.Blank
import LayeredConf.Proofs.Text.Escaped

/-!
# Entries are trimmed

An entry takes its key, its type and its value from the texts around the equals sign, with the
blanks around these left out.  Blanks between the equals sign and the value never reach the value,
nor do blanks around the key reach the key.  Only a blank before the colon of a declared type is
inside of the text that is trimmed, and stays in the key.

    keyAndType_cases        a declared type stands behind the last colon, with a key before it
    readEntry?_sound        where key, type and value of an entry stand in its line
    entry_trimmed_iff       the value is trimmed, and the key but for a blank before the colon
-/

namespace LayeredConf.Load

/-! ## Key and type -/

theorem append_of_lastColon? {s key type : List Char} (h : lastColon? s = some (key, type)) :
    s = key ++ ':' :: type := by
  have hsplit := List.takeWhile_append_dropWhile (p := (· ≠ ':')) (l := s.reverse)
  have hcolon := List.head?_dropWhile_not (· ≠ ':') s.reverse
  unfold lastColon? at h
  generalize s.reverse.dropWhile (· ≠ ':') = back at h hsplit hcolon
  cases back with
  | nil => cases h
  | cons c r =>
    obtain rfl : c = ':' := by simpa using hcolon
    have hs := congrArg List.reverse hsplit
    rw [List.reverse_reverse, List.reverse_append, List.reverse_cons, List.append_assoc] at hs
    rw [List.reverse_cons] at h
    generalize hkey : r.reverse ++ [':'] = keyColon at h
    cases keyColon with
    | nil => simp at hkey
    | cons d ds =>
      obtain ⟨rfl, rfl⟩ := Prod.mk.inj (Option.some.inj h)
      rw [← hkey, List.dropLast_concat]
      exact hs.symm

theorem lastColon?_append (key : List Char) {type : List Char} (h : ':' ∉ type) :
    lastColon? (key ++ ':' :: type) = some (key, type) := by
  have hnot : ∀ c ∈ type.reverse, (decide (c ≠ ':')) = true := by
    intro c hc
    rw [decide_eq_true_eq]
    rintro rfl
    exact h (List.mem_reverse.mp hc)
  have hreverse : (key ++ ':' :: type).reverse = type.reverse ++ ':' :: key.reverse := by simp
  unfold lastColon?
  rw [hreverse, List.takeWhile_append_of_pos hnot, List.dropWhile_append_of_pos hnot,
    List.takeWhile_cons_of_neg (by simp), List.dropWhile_cons_of_neg (by simp), List.append_nil,
    List.reverse_reverse, List.reverse_cons, List.reverse_reverse]
  cases key with
  | nil => rfl
  | cons c key =>
    dsimp only [List.cons_append]
    rw [← List.cons_append, List.dropLast_concat]

theorem not_mem_of_isEntryType {c : Char} (hc : ∀ t ∈ entryTypes, c ∉ '[' :: ']' :: t)
    {type : List Char} (h : isEntryType type = true) : c ∉ type := by
  unfold isEntryType at h
  rcases Bool.or_eq_true_iff.mp h with h | h
  · exact fun hmem => hc type (of_decide_eq_true h) (by simp [hmem])
  · split at h
    · next r _ => exact hc r (of_decide_eq_true h)
    · cases h

theorem colon_not_mem_of_isEntryType {type : List Char} (h : isEntryType type = true) :
    ':' ∉ type := not_mem_of_isEntryType (by decide) h

/-- What stands behind the last colon is the type, if it is one and a key is before it; else all of
it is the key. -/
theorem keyAndType_cases (s : List Char) :
    (∃ key type, key ≠ [] ∧ isEntryType type = true ∧ s = key ++ ':' :: type ∧
      keyAndType s = (key, type)) ∨
    keyAndType s = (s, []) ∧
      ∀ key type, key ≠ [] → s = key ++ ':' :: type → isEntryType type = false := by
  by_cases h : ∃ key type, key ≠ [] ∧ isEntryType type = true ∧ s = key ++ ':' :: type
  · obtain ⟨key, type, hkey, htype, rfl⟩ := h
    refine Or.inl ⟨key, type, hkey, htype, rfl, ?_⟩
    rw [keyAndType, lastColon?_append key (colon_not_mem_of_isEntryType htype)]
    exact if_pos ⟨hkey, htype⟩
  · refine Or.inr ⟨?_, fun key type hkey hs =>
      Bool.eq_false_iff.mpr fun htype => h ⟨key, type, hkey, htype, hs⟩⟩
    unfold keyAndType
    split
    · next key type hcolon =>
      exact if_neg fun hboth => h ⟨key, type, hboth.1, hboth.2, append_of_lastColon? hcolon⟩
    · rfl

/-- What a type adds to the key, with the colon before it. -/
def typeMark (type : List Char) : List Char := if type = [] then [] else ':' :: type

theorem typeMark_of_isEntryType {type : List Char} (h : isEntryType type = true) :
    typeMark type = ':' :: type := by
  refine if_neg ?_
  rintro rfl
  cases h

/-- Key and type lose nothing of the text. -/
theorem append_keyAndType (s : List Char) :
    (keyAndType s).1 ++ typeMark (keyAndType s).2 = s := by
  rcases keyAndType_cases s with ⟨key, type, -, htype, hs, heq⟩ | ⟨heq, -⟩
  · rw [heq, typeMark_of_isEntryType htype, hs]
  · rw [heq]
    exact List.append_nil s

theorem keyAndType_ne_nil {s : List Char} (h : s ≠ []) : (keyAndType s).1 ≠ [] := by
  rcases keyAndType_cases s with ⟨key, type, hkey, -, -, heq⟩ | ⟨heq, -⟩
  · rw [heq]
    exact hkey
  · rw [heq]
    exact h

/-- A type stands at the end, with a blank before its colon. -/
def SpacedType (s : List Char) : Prop :=
  ∃ c type, Text.isBlank c = true ∧ isEntryType type = true ∧ (c :: ':' :: type) <:+ s

theorem head?_keyAndType {s : List Char} (h : Text.Trimmed s) :
    ∀ c ∈ (keyAndType s).1.head?, Text.isBlank c = false := by
  intro c hc
  refine h.1 c ?_
  rw [← append_keyAndType s, List.head?_append, Option.mem_def.mp hc]
  rfl

/-- A blank before the colon stays in the key. -/
theorem trimmed_key_iff {s : List Char} (h : Text.Trimmed s) :
    Text.Trimmed (keyAndType s).1 ↔ ¬SpacedType s := by
  rcases keyAndType_cases s with ⟨key, type, -, htype, rfl, heq⟩ | ⟨heq, huntyped⟩
  · rw [heq]
    constructor
    · rintro htrimmed ⟨c, type', hc, htype', pre, hpre⟩
      -- the last colon is the one before the type
      have hcolon := lastColon?_append key (colon_not_mem_of_isEntryType htype)
      have hcolon' := lastColon?_append (pre ++ [c]) (colon_not_mem_of_isEntryType htype')
      rw [List.append_assoc, List.singleton_append, hpre, hcolon] at hcolon'
      obtain ⟨rfl, -⟩ := Prod.mk.inj (Option.some.inj hcolon')
      have hblank := htrimmed.2 c (by simp)
      rw [hc] at hblank
      cases hblank
    · intro hspaced
      refine ⟨fun c hc => ?_, fun c hc => Bool.eq_false_iff.mpr fun hblank => hspaced ?_⟩
      · have hhead := head?_keyAndType h c
        rw [heq] at hhead
        exact hhead hc
      · obtain ⟨pre, rfl⟩ := List.getLast?_eq_some_iff.mp hc
        exact ⟨c, type, hblank, htype, pre, by simp⟩
  · rw [heq]
    refine ⟨fun _ => ?_, fun _ => h⟩
    rintro ⟨c, type, -, htype, pre, hpre⟩
    have hnot := huntyped (pre ++ [c]) type (by simp) (by simp [← hpre])
    rw [htype] at hnot
    cases hnot

/-! ## Lines of entries -/

/-- Both ways to read a line read its entry alike. -/
theorem readEntry?_of_read {s : List Char} {e : Entry}
    (h : Line.read s = .entry e ∨ Line.readPlain s = .entry e) : readEntry? s = some e := by
  rcases h with h | h
  · unfold Line.read at h
    split at h
    · cases h
    · split at h
      · cases h
      · next hentry =>
        cases h
        exact hentry
      · cases h
  · unfold Line.readPlain at h
    split at h
    · cases h
    · split at h
      · next hentry =>
        cases h
        exact hentry
      · cases h

/-- The texts around the first equals sign, without the blanks around them, are the key with its
type and the value. -/
theorem readEntry?_sound {s : List Char} {e : Entry} (h : readEntry? s = some e) :
    ∃ before after, s = before ++ '=' :: after ∧ '=' ∉ before ∧ Text.trim before ≠ [] ∧
      keyAndType (Text.trim before) = (e.key.toList, e.type.toList) ∧
      Text.trim after = e.raw.toList := by
  unfold readEntry? at h
  split at h
  · cases h
  · next before after hcut =>
    dsimp only at h
    split at h
    · cases h
    · next hfound =>
      cases h
      obtain ⟨hs, hbefore⟩ := Text.cut?_eq_some_iff.mp hcut
      refine ⟨before, after, hs, hbefore, (not_or.mp hfound).1, ?_, String.toList_ofList.symm⟩
      rw [String.toList_ofList, String.toList_ofList]

/-- The type of an entry is one of the types, or there is none. -/
theorem entryType_of_readEntry {s : List Char} {e : Entry} (h : readEntry? s = some e) :
    e.type.toList = [] ∨ isEntryType e.type.toList = true := by
  obtain ⟨before, -, -, -, -, hkey, -⟩ := readEntry?_sound h
  rcases keyAndType_cases (Text.trim before) with ⟨_, type, -, htype, -, heq⟩ | ⟨heq, -⟩
  · rw [hkey] at heq
    obtain ⟨-, rfl⟩ := Prod.mk.inj heq
    exact Or.inr htype
  · rw [hkey] at heq
    exact Or.inl (Prod.mk.inj heq).2

/-- **Entries are trimmed.**  Key, type and value of an entry are the texts around the first equals
sign without the blanks around them.  The value neither begins nor ends with a blank and the key
does not begin with one; it ends with one exactly if the line has a blank before the colon of the
type that it declares. -/
theorem entry_trimmed_iff {s : List Char} {e : Entry}
    (h : Line.read s = .entry e ∨ Line.readPlain s = .entry e) :
    ∃ before after, s = before ++ '=' :: after ∧ '=' ∉ before ∧
      Text.trim before = e.key.toList ++ typeMark e.type.toList ∧
      Text.trim after = e.raw.toList ∧ Text.Trimmed e.raw.toList ∧
      (∃ c r, e.key.toList = c :: r ∧ Text.isBlank c = false) ∧
      (Text.Trimmed e.key.toList ↔ ¬SpacedType (Text.trim before)) := by
  obtain ⟨before, after, hs, hbefore, hne, hkey, hraw⟩ := readEntry?_sound (readEntry?_of_read h)
  have hleft := Text.trimmed_trim before
  have hparts := append_keyAndType (Text.trim before)
  have hhead := head?_keyAndType hleft
  have hkey_ne := keyAndType_ne_nil hne
  have htrimmed := trimmed_key_iff hleft
  rw [hkey] at hparts hhead hkey_ne htrimmed
  obtain ⟨c, r, hcons⟩ := List.exists_cons_of_ne_nil hkey_ne
  refine ⟨before, after, hs, hbefore, hparts.symm, hraw, hraw ▸ Text.trimmed_trim after, ?_,
    htrimmed⟩
  exact ⟨c, r, hcons, hhead c (by rw [hcons]; rfl)⟩

/-- Blanks around the key and the value are gone, those inside of them stay. -/
theorem entry_trimmed_iff_inner :
    Line.read "\t a b: c:[]int \u2028=\r1, 2 ".toList = .entry ⟨"a b: c", "[]int", "1, 2"⟩ ∧
    Text.Trimmed "1, 2".toList ∧ Text.Trimmed "a b: c".toList ∧
    ∃ before after, "\t a b: c:[]int \u2028=\r1, 2 ".toList = before ++ '=' :: after ∧
      ¬SpacedType (Text.trim before) := by
  have hread : Line.read "\t a b: c:[]int \u2028=\r1, 2 ".toList =
      .entry ⟨"a b: c", "[]int", "1, 2"⟩ := by decide +kernel
  obtain ⟨before, after, hs, -, -, -, hraw, -, hkey⟩ := entry_trimmed_iff (Or.inl hread)
  have htrimmed : Text.Trimmed "a b: c".toList := Text.trimmed_iff.mpr (by decide)
  exact ⟨hread, hraw, htrimmed, before, after, hs, hkey.mp htrimmed⟩

/-- A blank before the colon of a type stays at the end of the key. -/
theorem entry_keeps_blank :
    Line.read "port :int = 8080".toList = .entry ⟨"port ", "int", "8080"⟩ ∧
    Line.readPlain "port :int = 8080".toList = .entry ⟨"port ", "int", "8080"⟩ ∧
    ¬Text.Trimmed "port ".toList := by
  refine ⟨by decide +kernel, by decide +kernel, fun h => ?_⟩
  exact absurd (Text.trimmed_iff.mp h) (by decide)

end LayeredConf.Load
