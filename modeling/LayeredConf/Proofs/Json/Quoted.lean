import LayeredConf.Json.Quoted

/-!
# Quoted text reads back

Each character is written in a form that is read as this character whatever follows, so a quoted
text is read up to its own closing quote.

    readQuoted?_quoteChar     a character
    readQuoted?_flatMap       a text and its closing quote
-/

namespace LayeredConf.Json

theorem hexValue?_digitChar : ∀ n < 16, hexValue? (Nat.digitChar n) = some n := by decide

theorem unit?_hexDigits {n : Nat} (hn : n < 65536) :
    unit? (n / 4096 % 16).digitChar (n / 256 % 16).digitChar (n / 16 % 16).digitChar
      (n % 16).digitChar = some n := by
  have hdigit (m : Nat) : hexValue? (m % 16).digitChar = some (m % 16) :=
    hexValue?_digitChar _ (Nat.mod_lt m (by decide))
  unfold unit?
  rw [hdigit, hdigit, hdigit, hdigit]
  simp
  omega

theorem readQuoted?_no_unit {a b c d : Char} (h : unit? a b c d = none) (r : List Char) :
    readQuoted? ('\\' :: 'u' :: a :: b :: c :: d :: r) = none := by
  by_cases hr : ∃ e f g h r', r = '\\' :: 'u' :: e :: f :: g :: h :: r'
  · obtain ⟨e, f, g, h', r', rfl⟩ := hr
    rw [readQuoted?, h]
  · rw [readQuoted?, h]
    exact fun e f g h' r' he => hr ⟨e, f, g, h', r', he⟩

/-- A unit that is no half of a pair stands for its character, whatever follows. -/
theorem readQuoted?_unit {a b c d : Char} {n : Nat} (h : unit? a b c d = some n) (hn : n < 0xD800)
    (r : List Char) : readQuoted? ('\\' :: 'u' :: a :: b :: c :: d :: r) =
      (readQuoted? r).map fun (s, r) => (unitChar n :: s, r) := by
  by_cases hr : ∃ e f g h r', r = '\\' :: 'u' :: e :: f :: g :: h :: r'
  · obtain ⟨e, f, g, h', r', rfl⟩ := hr
    rw [readQuoted?, h]
    cases hlow : unit? e f g h' with
    | none => rw [readQuoted?_no_unit hlow, Option.map_none]
    | some low =>
      dsimp only
      rw [pairChar?, if_neg (by omega)]
  · rw [readQuoted?, h]
    exact fun e f g h' r' he => hr ⟨e, f, g, h', r', he⟩

theorem readQuoted?_plain {c : Char} (hquote : c ≠ '"') (hslash : c ≠ '\\')
    (hcontrol : ¬ c.toNat < 0x20) (r : List Char) :
    readQuoted? (c :: r) = (readQuoted? r).map fun (s, r) => (c :: s, r) := by
  rw [readQuoted?.eq_7 c r hquote (by simp [hslash]) (by simp [hslash]) (by simp [hslash])
    (by simp [hslash]), if_neg hcontrol]

theorem readQuoted?_quoteChar (c : Char) (r : List Char) :
    readQuoted? (quoteChar c ++ r) = (readQuoted? r).map fun (s, r) => (c :: s, r) := by
  unfold quoteChar
  split
  case h_8 hquote hslash _ _ _ _ _ =>
    split
    · next hcontrol =>
      have hchar : unitChar c.toNat = c := by
        rw [unitChar, if_neg (by omega), Char.ofNat_toNat]
      have hread := readQuoted?_unit (unit?_hexDigits (n := c.toNat) (by omega)) (by omega) r
      rwa [hchar] at hread
    · next hcontrol => exact readQuoted?_plain hquote hslash hcontrol r
  -- the other characters have an escape letter
  all_goals simp [readQuoted?, escapeChar?]

/-- **A text in quotes is read up to its closing quote.** -/
theorem readQuoted?_flatMap (s r : List Char) :
    readQuoted? (s.flatMap quoteChar ++ '"' :: r) = some (s, r) := by
  induction s with
  | nil => simp [readQuoted?]
  | cons c s ih =>
    rw [List.flatMap_cons, List.append_assoc, readQuoted?_quoteChar, ih, Option.map_some]

end LayeredConf.Json
