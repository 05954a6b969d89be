import LayeredConf.Text.Escaped
import Mathlib.Data.List.Basic

/-!
# Texts by their units

No unit that stands for a character by itself begins a pair, so a text is determined by its units.

    units_injective    texts with the same units are the same
-/

namespace LayeredConf.Text

theorem units_append_inj {c d : Char} {s t : List Nat} (h : units c ++ s = units d ++ t) :
    c = d ∧ s = t := by
  have hc : c.toNat < 0xD800 ∨ 0xDFFF < c.toNat ∧ c.toNat < 0x110000 := c.valid
  have hd : d.toNat < 0xD800 ∨ 0xDFFF < d.toNat ∧ d.toNat < 0x110000 := d.valid
  have hcode : c.toNat = d.toNat → c = d := fun he => Char.toNat_inj.mp he
  unfold units at h
  dsimp only at h
  by_cases hcs : c.toNat < 0x10000
  · by_cases hds : d.toNat < 0x10000
    · rw [if_pos hcs, if_pos hds] at h
      obtain ⟨hhead, htail⟩ := List.cons.inj h
      exact ⟨hcode hhead, htail⟩
    · rw [if_pos hcs, if_neg hds] at h
      have hhead := (List.cons.inj h).1
      omega
  · by_cases hds : d.toNat < 0x10000
    · rw [if_neg hcs, if_pos hds] at h
      have hhead := (List.cons.inj h).1
      omega
    · rw [if_neg hcs, if_neg hds] at h
      obtain ⟨hhigh, hrest⟩ := List.cons.inj h
      obtain ⟨hlow, htail⟩ := List.cons.inj hrest
      exact ⟨hcode (by omega), htail⟩

theorem units_ne_nil (c : Char) : units c ≠ [] := by
  unfold units
  dsimp only
  split
  · exact List.cons_ne_nil _ _
  · exact List.cons_ne_nil _ _

theorem units_injective {s t : List Char} (h : s.flatMap units = t.flatMap units) : s = t := by
  induction s generalizing t with
  | nil =>
    cases t with
    | nil => rfl
    | cons d t =>
      rw [List.flatMap_nil, List.flatMap_cons, eq_comm, List.append_eq_nil_iff] at h
      exact absurd h.1 (units_ne_nil d)
  | cons c s ih =>
    cases t with
    | nil =>
      rw [List.flatMap_nil, List.flatMap_cons, List.append_eq_nil_iff] at h
      exact absurd h.1 (units_ne_nil c)
    | cons d t =>
      rw [List.flatMap_cons, List.flatMap_cons] at h
      obtain ⟨hcd, hst⟩ := units_append_inj h
      rw [hcd, ih hst]

end LayeredConf.Text
