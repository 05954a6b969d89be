import LayeredConf.Forest.Sorting
import LayeredConf.Proofs.Text.Units
import Mathlib.Data.List.Basic
import Mathlib.Order.Lattice
import Mathlib.Data.List.Lex
import Mathlib.Data.List.Nodup

/-!
# Sorted keys

Integer keys are ordered by their numbers, and of equal ones each keeps its place; other keys are
told apart by their order.  Either way what is sorted depends on the order of equal integers alone,
so to sort after each of several additions is to sort once after all of them.

    sortKeys_pairwise    sorted keys are in order
    sortKeys_append      sorting once more, with more keys
-/

namespace LayeredConf

/-! ## The order of keys -/

/-- The number that an integer key is ordered by. -/
def keyRank (k : String) : Int := (keyNumber? k).getD 0

section

variable {keys keys' : List String} {a b c : String}

theorem onlyIntegerKeys_perm (h : keys.Perm keys') :
    onlyIntegerKeys keys = onlyIntegerKeys keys' := by
  rw [Bool.eq_iff_iff, onlyIntegerKeys, onlyIntegerKeys, List.all_eq_true, List.all_eq_true]
  exact forall_congr' fun k => by rw [h.mem_iff]

theorem onlyIntegerKeys_append :
    onlyIntegerKeys (keys ++ keys') = (onlyIntegerKeys keys && onlyIntegerKeys keys') :=
  List.all_append

theorem keyOrder_eq_of_integers (h : onlyIntegerKeys keys = true) :
    keyOrder keys a b = true ↔ keyRank a ≤ keyRank b := by
  rw [keyOrder, if_pos h]
  exact decide_eq_true_iff

theorem keyOrder_eq_of_others (h : onlyIntegerKeys keys = false) :
    keyOrder keys a b = true ↔ a.toList.flatMap Text.units ≤ b.toList.flatMap Text.units := by
  rw [keyOrder, if_neg (by simp [h]), Bool.not_eq_true', Text.unitLess, decide_eq_false_iff_not,
    not_lt]

theorem keyOrder_trans (keys : List String) (a b c : String) (hab : keyOrder keys a b = true)
    (hbc : keyOrder keys b c = true) : keyOrder keys a c = true := by
  cases h : onlyIntegerKeys keys with
  | true =>
    rw [keyOrder_eq_of_integers h] at *
    omega
  | false =>
    rw [keyOrder_eq_of_others h] at *
    exact le_trans hab hbc

theorem keyOrder_total (keys : List String) (a b : String) :
    (keyOrder keys a b || keyOrder keys b a) = true := by
  rw [Bool.or_eq_true]
  cases h : onlyIntegerKeys keys with
  | true =>
    rw [keyOrder_eq_of_integers h, keyOrder_eq_of_integers h]
    omega
  | false =>
    rw [keyOrder_eq_of_others h, keyOrder_eq_of_others h]
    exact le_total _ _

/-- Keys that are not all integers are told apart. -/
theorem eq_of_keyOrder (h : onlyIntegerKeys keys = false) (hab : keyOrder keys a b = true)
    (hba : keyOrder keys b a = true) : a = b := by
  rw [keyOrder_eq_of_others h] at hab hba
  exact String.toList_inj.mp (Text.units_injective (le_antisymm hab hba))

end

/-! ## Lists in order of a rank -/

/-- What is in order of a rank is determined by the elements of each rank, in their order. -/
theorem eq_of_filter_rank {α : Type} (rank : α → Int) {l m : List α}
    (hl : l.Pairwise fun a b => rank a ≤ rank b) (hm : m.Pairwise fun a b => rank a ≤ rank b)
    (h : ∀ r, l.filter (rank · = r) = m.filter (rank · = r)) : l = m := by
  induction l generalizing m with
  | nil =>
    refine (List.eq_nil_iff_forall_not_mem.mpr fun b hb => ?_).symm
    have hmem : b ∈ m.filter (rank · = rank b) := List.mem_filter.mpr ⟨hb, by simp⟩
    rw [← h] at hmem
    cases hmem
  | cons a l ih =>
    have hmem : ∀ b, b ∈ a :: l ↔ b ∈ m := by
      intro b
      have hb := congrArg (b ∈ ·) (h (rank b))
      simpa [List.mem_filter] using hb
    obtain ⟨hal, hl⟩ := List.pairwise_cons.mp hl
    cases m with
    | nil => exact absurd ((hmem a).mp List.mem_cons_self) List.not_mem_nil
    | cons b m =>
      obtain ⟨hbm, hm'⟩ := List.pairwise_cons.mp hm
      have hrank : rank a = rank b := by
        have hab : rank a ≤ rank b := by
          rcases List.mem_cons.mp ((hmem b).mpr List.mem_cons_self) with hba | hb
          · rw [hba]
          · exact hal b hb
        have hba : rank b ≤ rank a := by
          rcases List.mem_cons.mp ((hmem a).mp List.mem_cons_self) with hab | ha
          · rw [hab]
          · exact hbm a ha
        omega
      have hhead := h (rank a)
      rw [List.filter_cons_of_pos (by simp), List.filter_cons_of_pos (by simp [hrank])] at hhead
      obtain ⟨rfl, -⟩ := List.cons.inj hhead
      refine congrArg _ (ih hl hm' fun r => ?_)
      have hr := h r
      rw [List.filter_cons, List.filter_cons] at hr
      split at hr
      · exact (List.cons.inj hr).2
      · exact hr

/-! ## Sorted keys -/

section

variable (l m : List String)

theorem sortKeys_perm : (sortKeys l).Perm l := List.mergeSort_perm _ _

theorem sortKeys_pairwise : (sortKeys l).Pairwise fun a b => keyOrder l a b = true :=
  List.pairwise_mergeSort (keyOrder_trans l) (keyOrder_total l) l

/-- Keys with the same number keep their order. -/
theorem filter_sortKeys (h : onlyIntegerKeys l = true) (r : Int) :
    (sortKeys l).filter (keyRank · = r) = l.filter (keyRank · = r) := by
  have hsorted : (l.filter (keyRank · = r)).Pairwise fun a b => keyOrder l a b = true := by
    refine List.pairwise_of_forall_mem_list ?_
    intro a ha b hb
    have har := of_decide_eq_true (List.mem_filter.mp ha).2
    have hbr := of_decide_eq_true (List.mem_filter.mp hb).2
    rw [keyOrder_eq_of_integers h]
    omega
  have hsub : (l.filter (keyRank · = r)).Sublist (sortKeys l) :=
    List.sublist_mergeSort (keyOrder_trans l) (keyOrder_total l) hsorted List.filter_sublist
  have hfilter := hsub.filter (keyRank · = r)
  rw [List.filter_filter] at hfilter
  have hlen := ((sortKeys_perm l).filter (keyRank · = r)).length_eq
  refine (List.Sublist.eq_of_length ?_ hlen.symm).symm
  simpa using hfilter

variable {l m} in
/-- Integer keys leave one order that keeps that of the keys with the same number. -/
theorem sortKeys_eq_of_integers (h : onlyIntegerKeys l = true)
    (hm : m.Pairwise fun a b => keyRank a ≤ keyRank b)
    (hsame : ∀ r, l.filter (keyRank · = r) = m.filter (keyRank · = r)) : sortKeys l = m := by
  have hl : (sortKeys l).Pairwise fun a b => keyRank a ≤ keyRank b :=
    (sortKeys_pairwise l).imp fun hab => (keyOrder_eq_of_integers h).mp hab
  refine eq_of_filter_rank keyRank hl hm ?_
  intro r
  rw [filter_sortKeys l h, hsame]

variable {l m} in
/-- Keys that are not all integers leave one order. -/
theorem sortKeys_eq_of_others (h : onlyIntegerKeys l = false) (hperm : l.Perm m)
    (hm : m.Pairwise fun a b => keyOrder l a b = true) : sortKeys l = m := by
  refine List.Perm.eq_of_pairwise ?_ (sortKeys_pairwise l) hm ((sortKeys_perm l).trans hperm)
  intro a b _ _ hab hba
  exact eq_of_keyOrder h hab hba

/-- To sort once more with more keys is to sort them all. -/
theorem sortKeys_append : sortKeys (sortKeys l ++ m) = sortKeys (l ++ m) := by
  have hperm : (sortKeys l ++ m).Perm (l ++ m) := (sortKeys_perm l).append_right m
  have hkeys := onlyIntegerKeys_perm hperm
  cases hint : onlyIntegerKeys (l ++ m) with
  | true =>
    rw [hint] at hkeys
    have hl : onlyIntegerKeys l = true := by
      rw [onlyIntegerKeys_append, Bool.and_eq_true] at hint
      exact hint.1
    refine sortKeys_eq_of_integers hkeys
      ((sortKeys_pairwise _).imp (keyOrder_eq_of_integers hint).mp) ?_
    intro r
    rw [filter_sortKeys _ hint, List.filter_append, List.filter_append, filter_sortKeys _ hl]
  | false =>
    rw [hint] at hkeys
    have hsame := hperm.trans (sortKeys_perm (l ++ m)).symm
    refine sortKeys_eq_of_others hkeys hsame ((sortKeys_pairwise (l ++ m)).imp ?_)
    intro a b hab
    rw [keyOrder_eq_of_others hint] at hab
    rwa [keyOrder_eq_of_others hkeys]

end

end LayeredConf
