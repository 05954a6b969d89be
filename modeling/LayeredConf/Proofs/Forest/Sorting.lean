import LayeredConf.Proofs.Forest.Run
import LayeredConf.Proofs.Forest.Ordering
import LayeredConf.Proofs.Forest.Views
import Mathlib.Algebra.Ring.Int.Defs

/-!
# Sorting

Children are put in order by number if all their keys are integers of 64 bits, and by the units of
their keys otherwise; one key of another kind changes the order of them all.  To sort a node is to
do this to the order of its children, and to sort all below it is to do it to every node that a walk
leads to.  Nothing else changes, the maps included, so to sort once more changes nothing.

    IsInteger k i        the key `k` spells the integer `i`
    InOrder l l'         `l'` is the keys `l` in order
    Sorted P f g         `g` is `f` with the children of the nodes of `P` in order
    sortDown_sorted      from a depth on that no walk exceeds, all nodes below are sorted
    sort_inOrder         what sorting a node does, and sorting all below it
-/

namespace LayeredConf

/-! ## Integer keys -/

/-- Digits with an optional sign that spell an integer of 64 bits. -/
def IsInteger (k : String) (i : Int) : Prop :=
  ∃ ds : List Char, ds ≠ [] ∧ (∀ d ∈ ds, d.isDigit) ∧
    ((k.toList = ds ∨ k.toList = '+' :: ds) ∧ i = Decimal.digitsValue ds ∨
      k.toList = '-' :: ds ∧ i = -Decimal.digitsValue ds) ∧
    -2 ^ 63 ≤ i ∧ i < 2 ^ 63

theorem takeSign_eq_iff {s ds : List Char} (hne : ds ≠ []) (hdigits : ∀ d ∈ ds, d.isDigit)
    (negative : Bool) : Decimal.takeSign s = (negative, ds) ↔
      negative = false ∧ (s = ds ∨ s = '+' :: ds) ∨ negative = true ∧ s = '-' :: ds := by
  constructor
  · intro h
    unfold Decimal.takeSign at h
    split at h
    · cases h
      exact Or.inl ⟨rfl, Or.inr rfl⟩
    · cases h
      exact Or.inr ⟨rfl, rfl⟩
    · cases h
      exact Or.inl ⟨rfl, Or.inl rfl⟩
  · rintro (⟨rfl, rfl | rfl⟩ | ⟨rfl, rfl⟩)
    · -- a digit is no sign
      unfold Decimal.takeSign
      split
      · exact absurd (hdigits '+' List.mem_cons_self) (by decide)
      · exact absurd (hdigits '-' List.mem_cons_self) (by decide)
      · rfl
    · rfl
    · rfl

theorem readInteger?_eq_some_iff {s : List Char} {negative : Bool} {m : Nat} :
    Decimal.readInteger? s = some (negative, m) ↔
      ∃ ds, ds ≠ [] ∧ (∀ d ∈ ds, d.isDigit) ∧ m = Decimal.digitsValue ds ∧
        Decimal.takeSign s = (negative, ds) := by
  unfold Decimal.readInteger?
  obtain ⟨sign, ds⟩ := Decimal.takeSign s
  dsimp only
  constructor
  · intro h
    split at h
    · next hds =>
      cases h
      exact ⟨ds, hds.1, List.all_eq_true.mp hds.2, rfl, rfl⟩
    · cases h
  · rintro ⟨ds', hne, hdigits, rfl, heq⟩
    cases heq
    exact if_pos ⟨hne, List.all_eq_true.mpr hdigits⟩

theorem keyNumber?_eq_some_iff {k : String} {i : Int} : keyNumber? k = some i ↔ IsInteger k i := by
  constructor
  · intro h
    unfold keyNumber? at h
    split at h
    · next negative m hread =>
      obtain ⟨ds, hne, hdigits, rfl, hsign⟩ := readInteger?_eq_some_iff.mp hread
      obtain ⟨hrange, hi⟩ := Option.ite_none_right_eq_some.mp h
      obtain rfl := Option.some.inj hi
      refine ⟨ds, hne, hdigits, ?_, by omega⟩
      rcases (takeSign_eq_iff hne hdigits negative).mp hsign with ⟨rfl, hk⟩ | ⟨rfl, hk⟩
      · exact Or.inl ⟨hk, rfl⟩
      · exact Or.inr ⟨hk, rfl⟩
    · cases h
  · rintro ⟨ds, hne, hdigits, hspells, hlow, hhigh⟩
    have hrange : -9223372036854775808 ≤ i ∧ i ≤ 9223372036854775807 := by omega
    have hread (negative : Bool) (hsign : Decimal.takeSign k.toList = (negative, ds)) :
        Decimal.readInteger? k.toList = some (negative, Decimal.digitsValue ds) :=
      readInteger?_eq_some_iff.mpr ⟨ds, hne, hdigits, rfl, hsign⟩
    rcases hspells with ⟨hk, rfl⟩ | ⟨hk, rfl⟩
    · rw [keyNumber?, hread false ((takeSign_eq_iff hne hdigits _).mpr (Or.inl ⟨rfl, hk⟩))]
      exact if_pos hrange
    · rw [keyNumber?, hread true ((takeSign_eq_iff hne hdigits _).mpr (Or.inr ⟨rfl, hk⟩))]
      exact if_pos hrange

theorem keyRank_of_isInteger {k : String} {i : Int} (h : IsInteger k i) : keyRank k = i := by
  rw [keyRank, keyNumber?_eq_some_iff.mpr h]
  rfl

theorem onlyIntegerKeys_iff {keys : List String} :
    onlyIntegerKeys keys = true ↔ ∀ k ∈ keys, ∃ i, IsInteger k i := by
  rw [onlyIntegerKeys, List.all_eq_true]
  refine forall₂_congr fun k _ => ?_
  rw [Option.isSome_iff_exists]
  exact exists_congr fun i => keyNumber?_eq_some_iff

/-! ## Keys in order -/

/-- The keys `l` in order: by number, those of one number in the order that they had, if all are
integers, and otherwise by units, no two alike. -/
structure InOrder (l l' : List String) : Prop where
  perm : l'.Perm l
  integers : (∀ k ∈ l, ∃ i, IsInteger k i) →
    l'.Pairwise (fun a b => ∀ i j, IsInteger a i → IsInteger b j → i ≤ j) ∧
    ∀ a b i, IsInteger a i → IsInteger b i → [a, b].Sublist l → [a, b].Sublist l'
  others : (∃ k ∈ l, ∀ i, ¬IsInteger k i) →
    l'.Pairwise fun a b => a.toList.flatMap Text.units < b.toList.flatMap Text.units

section

variable {l : List String}

theorem sortKeys_inOrder (hkeys : l.Nodup) : InOrder l (sortKeys l) where
  perm := sortKeys_perm l
  integers hall := by
    have hint : onlyIntegerKeys l = true := onlyIntegerKeys_iff.mpr hall
    refine ⟨(sortKeys_pairwise l).imp fun hab i j hi hj => ?_, fun a b i ha hb hsub => ?_⟩
    · rw [keyOrder_eq_of_integers hint, keyRank_of_isInteger hi, keyRank_of_isInteger hj] at hab
      exact hab
    · refine List.pair_sublist_mergeSort (keyOrder_trans l) (keyOrder_total l) ?_ hsub
      rw [keyOrder_eq_of_integers hint, keyRank_of_isInteger ha, keyRank_of_isInteger hb]
  others hother := by
    have hint : onlyIntegerKeys l = false := by
      obtain ⟨k, hk, hnone⟩ := hother
      refine Bool.eq_false_iff.mpr fun hint => ?_
      obtain ⟨i, hi⟩ := onlyIntegerKeys_iff.mp hint k hk
      exact hnone i hi
    have hdistinct : (sortKeys l).Pairwise (· ≠ ·) := (sortKeys_perm l).nodup_iff.mpr hkeys
    refine ((sortKeys_pairwise l).and hdistinct).imp fun {a b} hab => ?_
    refine lt_of_le_of_ne ((keyOrder_eq_of_others hint).mp hab.1) fun hunits => hab.2 ?_
    exact String.toList_inj.mp (Text.units_injective hunits)

/-- To sort twice is to sort once. -/
theorem sortKeys_sortKeys (l : List String) : sortKeys (sortKeys l) = sortKeys l := by
  have happend := sortKeys_append l []
  rwa [List.append_nil, List.append_nil] at happend

end

namespace Forest

/-! ## Sorted nodes -/

/-- `g` is `f` with the children of the nodes of `P` in order. -/
structure Sorted (P : NodeId → Prop) (f g : Forest) : Prop where
  size_eq : g.size = f.size
  keys_of : ∀ n, P n → g.keys n = sortKeys (f.keys n)
  keys_of_not : ∀ n, ¬ P n → g.keys n = f.keys n
  /-- What a node has under a key is as it was. -/
  child_eq : ∀ n k, g.child n k = f.child n k
  /-- Of a node only the order of its children changes. -/
  node_eq : ∀ n, g.node n = { f.node n with childOrder := g.keys n }

section

variable {P Q : NodeId → Prop} {f g h : Forest} {n m c : NodeId}

theorem Sorted.children_eq (hg : Sorted P f g) (n : NodeId) :
    g.children n = { f.children n with childOrder := g.keys n } := by
  rw [children, hg.node_eq]
  rfl

theorem Sorted.wellFormed (hg : Sorted P f g) (hf : f.WellFormed) : g.WellFormed := by
  refine hf.congr (fun n => ?_) hg.child_eq (fun n => ?_) (fun n => ?_)
    (Nat.le_of_eq hg.size_eq.symm)
  · rw [hg.children_eq]
    by_cases hn : P n
    · rw [hg.keys_of n hn]
      exact (hf.agrees n).sort
    · rw [hg.keys_of_not n hn]
      exact hf.agrees n
  · rw [key, hg.node_eq]
    rfl
  · rw [link, hg.node_eq]
    rfl

theorem Sorted.walk_eq (hg : Sorted P f g) (n : NodeId) (ks : List String) :
    g.walk n ks = f.walk n ks := by
  induction ks generalizing n with
  | nil => rfl
  | cons k ks ih =>
    rw [walk, walk, hg.child_eq]
    cases f.child n k with
    | none => rfl
    | some c => exact ih c

theorem Sorted.congr (hg : Sorted P f g) (hPQ : ∀ n, P n ↔ Q n) : Sorted Q f g := by
  obtain rfl : P = Q := funext fun n => propext (hPQ n)
  exact hg

theorem Sorted.trans (hg : Sorted P f g) (hh : Sorted Q g h) :
    Sorted (fun n => P n ∨ Q n) f h where
  size_eq := hh.size_eq.trans hg.size_eq
  keys_of n hn := by
    by_cases hp : P n
    · by_cases hq : Q n
      · rw [hh.keys_of n hq, hg.keys_of n hp, sortKeys_sortKeys]
      · rw [hh.keys_of_not n hq, hg.keys_of n hp]
    · rw [hh.keys_of n (hn.resolve_left hp), hg.keys_of_not n hp]
  keys_of_not n hn := by
    rw [hh.keys_of_not n fun hq => hn (Or.inr hq), hg.keys_of_not n fun hp => hn (Or.inl hp)]
  child_eq n k := (hh.child_eq n k).trans (hg.child_eq n k)
  node_eq n := by
    rw [hh.node_eq, hg.node_eq]

/-- Nodes of which no one has children are sorted as they are. -/
theorem sorted_refl (hP : ∀ n, P n → f.keys n = []) : Sorted P f f where
  size_eq := rfl
  keys_of n hn := by
    rw [hP n hn]
    exact (List.perm_nil.mp (sortKeys_perm _)).symm
  keys_of_not _ _ := rfl
  child_eq _ _ := rfl
  node_eq _ := rfl

theorem sort_sorted (f : Forest) (n : NodeId) : Sorted (· = n) f (f.sort n) := by
  have hchildren := f.children_sort n
  refine ⟨size_sort f n, fun m hm => ?_, fun m hm => ?_, fun m k => ?_, fun m => ?_⟩
  · rw [keys, hchildren, if_pos hm, hm]
    rfl
  · rw [keys, hchildren, if_neg hm]
    rfl
  · rw [child, hchildren]
    split
    · next hm => rw [hm, Children.get?_sort]; rfl
    · rfl
  · refine node_eq_of_fields ?_ ?_ ?_ ?_ ?_
    · exact field_modify_of_eq Node.key f n m _ fun _ => rfl
    · exact field_modify_of_eq Node.value f n m _ fun _ => rfl
    · exact field_modify_of_eq Node.flags f n m _ fun _ => rfl
    · exact field_modify_of_eq Node.link f n m _ fun _ => rfl
    · show (f.sort n).children m = { f.children m with childOrder := (f.sort n).keys m }
      rw [keys, hchildren]
      split
      · next hm => rw [hm]; rfl
      · rfl

/-! ## Sorting below a node -/

/-- Steps that sort what is below each of some nodes sort what is below any of them. -/
theorem foldl_sorted {below : NodeId → NodeId → Prop} {step : Forest → NodeId → Forest}
    {cs : List NodeId} (hg : Sorted P f g)
    (hstep : ∀ h Q, Sorted Q f h → ∀ c ∈ cs, Sorted (below c) h (step h c)) :
    Sorted (fun m => P m ∨ ∃ c ∈ cs, below c m) f (cs.foldl step g) := by
  induction cs generalizing P g with
  | nil =>
    refine hg.congr fun m => ?_
    simp
  | cons c cs ih =>
    have hfirst := hg.trans (hstep g P hg c List.mem_cons_self)
    refine (ih hfirst fun h Q hh d hd => hstep h Q hh d (List.mem_cons_of_mem c hd)).congr
      fun m => ?_
    simp [or_assoc]

/-- Down to a depth that no walk exceeds, everything below the node is sorted. -/
theorem sortDown_sorted (depth : Nat) (hf : f.WellFormed) (n : NodeId)
    (hdepth : ∀ ks m, f.walk n ks = some m → ks.length ≤ depth) :
    Sorted (fun m => ∃ ks, f.walk n ks = some m) f (sortDown depth f n) := by
  induction depth generalizing f n with
  | zero =>
    refine (sort_sorted f n).congr fun m => ⟨fun hm => ⟨[], by rw [hm]; rfl⟩, ?_⟩
    rintro ⟨ks, hks⟩
    obtain rfl := List.length_eq_zero_iff.mp (Nat.le_zero.mp (hdepth ks m hks))
    exact (Option.some.inj hks).symm
  | succ depth ih =>
    have hsort := sort_sorted f n
    have hmem (c : NodeId) : c ∈ ((f.sort n).children n).childMap.map (·.2) ↔
        ∃ k, f.child n k = some c := by
      rw [((hsort.wellFormed hf).agrees n).mem_map_iff]
      exact exists_congr fun k => by rw [← hsort.child_eq]; rfl
    have hstep : ∀ h Q, Sorted Q f h → ∀ c ∈ ((f.sort n).children n).childMap.map (·.2),
        Sorted (fun m => ∃ ks, f.walk c ks = some m) h
          (if h.isLeaf c then h else sortDown depth h c) := by
      intro h Q hh c hc
      obtain ⟨k, hk⟩ := (hmem c).mp hc
      split
      · next hleaf =>
        -- no walk goes on from a leaf
        have hnone : h.keys c = [] := List.isEmpty_iff.mp hleaf
        refine sorted_refl fun m hm => ?_
        obtain ⟨ks, hks⟩ := hm
        rw [← hh.walk_eq] at hks
        cases ks with
        | nil =>
          obtain rfl := Option.some.inj hks
          exact hnone
        | cons k' ks =>
          obtain ⟨d, hd, -⟩ := (h.walk_cons_eq_some_iff c m k' ks).mp hks
          have hkey := ((hh.wellFormed hf).mem_keys_iff c k').mpr ⟨d, hd⟩
          rw [hnone] at hkey
          cases hkey
      · refine (ih (hh.wellFormed hf) c fun ks m hks => ?_).congr fun m => ?_
        · rw [hh.walk_eq] at hks
          exact Nat.le_of_succ_le_succ
            (hdepth (k :: ks) m ((f.walk_cons_eq_some_iff n m k ks).mpr ⟨c, hk, hks⟩))
        · simp only [hh.walk_eq]
    refine (foldl_sorted hsort hstep).congr fun m => ⟨?_, ?_⟩
    · rintro (hm | ⟨c, hc, ks, hks⟩)
      · exact ⟨[], by rw [hm]; rfl⟩
      · obtain ⟨k, hk⟩ := (hmem c).mp hc
        exact ⟨k :: ks, (f.walk_cons_eq_some_iff n m k ks).mpr ⟨c, hk, hks⟩⟩
    · rintro ⟨ks, hks⟩
      cases ks with
      | nil => exact Or.inl (Option.some.inj hks).symm
      | cons k ks =>
        obtain ⟨c, hc, hks⟩ := (f.walk_cons_eq_some_iff n m k ks).mp hks
        exact Or.inr ⟨c, (hmem c).mpr ⟨k, hc⟩, ks, hks⟩

/-- No walk passes more nodes than there are. -/
theorem WellFormed.walk_length_le (hf : f.WellFormed) {ks : List String}
    (h : f.walk n ks = some m) : ks.length ≤ f.size := by
  cases ks with
  | nil => exact Nat.zero_le _
  | cons k ks =>
    obtain ⟨c, hc, -⟩ := (f.walk_cons_eq_some_iff n m k ks).mp h
    obtain ⟨l, hl, hks⟩ := hf.lineage_of_walk h
    have hle := hf.lineage_length_le (hf.lt_of_walk (lt_size_of_child hc) h)
    rw [hl, List.length_append] at hle
    rw [hks, List.length_reverse, List.length_map]
    omega

theorem sortAll_sorted (hf : f.WellFormed) (n : NodeId) :
    Sorted (fun m => ∃ ks, f.walk n ks = some m) f (f.sortAll n) :=
  sortDown_sorted f.size hf n fun _ _ => hf.walk_length_le

/-- To sort once more what is in order changes nothing. -/
theorem Sorted.eq_of_sorted (hg : Sorted P f g) (hh : Sorted P g h) : h = g := by
  refine ext_node hh.size_eq fun n => ?_
  have hkeys : h.keys n = g.keys n := by
    by_cases hn : P n
    · rw [hh.keys_of n hn, hg.keys_of n hn, sortKeys_sortKeys]
    · exact hh.keys_of_not n hn
  rw [hh.node_eq, hkeys]
  rfl

end

/-- **Sorting puts children in order and changes nothing else.**  Sorted keys are a permutation in
order: by number if all keys are integers, with keys of one number as they were, and else strictly
by units.  To sort a node does this to the order of its children, and to sort all below it does it
to the order of every node that a walk leads to; keys, values, links, flags and the maps of children
stay.  Either done twice is the same as done once. -/
theorem sort_inOrder {f : Forest} (hf : f.WellFormed) (n : NodeId) :
    (∀ m, InOrder (f.keys m) (sortKeys (f.keys m))) ∧
    Sorted (· = n) f (f.sort n) ∧ (f.sort n).sort n = f.sort n ∧
    Sorted (fun m => ∃ ks, f.walk n ks = some m) f (f.sortAll n) ∧
    (f.sortAll n).sortAll n = f.sortAll n := by
  have hsort := sort_sorted f n
  have hall := sortAll_sorted hf n
  refine ⟨fun m => sortKeys_inOrder (hf.distinct m), hsort, ?_, hall, ?_⟩
  · exact hsort.eq_of_sorted (sort_sorted _ n)
  · refine hall.eq_of_sorted ((sortAll_sorted (hall.wellFormed hf) n).congr fun m => ?_)
    simp only [hall.walk_eq]

/-- Signs and zeros in front count for nothing among integers; a key out of range makes the order
one of texts. -/
theorem sort_inOrder_mixed : ∃ steps f, Run steps f ∧ f.keys 0 = ["+2", "10", "02", "-1"] ∧
    f.walk 0 ["10"] = some 2 ∧ f.keys 2 = ["9", "10", "9223372036854775808"] ∧
    (f.sort 0).keys 0 = ["-1", "+2", "02", "10"] ∧
    (f.sortAll 0).keys 2 = ["10", "9", "9223372036854775808"] ∧
    (f.sortAll 0).sortAll 0 = f.sortAll 0 := by
  obtain ⟨steps, f, hrun, houter, hwalk, hinner⟩ : ∃ steps f, Run steps f ∧
      f.keys 0 = ["+2", "10", "02", "-1"] ∧ f.walk 0 ["10"] = some 2 ∧
      f.keys 2 = ["9", "10", "9223372036854775808"] :=
    ⟨_, _, .step (.ofArgs [("+2", .text "a"), ("10.9", .unset), ("10.10", .unset),
      ("10.9223372036854775808", .unset), ("02", .text "b"), ("-1", .unset)]) .start (by decide),
      by decide, by decide, by decide⟩
  have hintegers : sortKeys ["+2", "10", "02", "-1"] = ["-1", "+2", "02", "10"] := by
    obtain ⟨h₁, h₂, h₃, h₄⟩ : keyRank "+2" = 2 ∧ keyRank "10" = 10 ∧ keyRank "02" = 2 ∧
        keyRank "-1" = -1 := by decide
    refine sortKeys_eq_of_integers (by decide) (by decide) fun r => ?_
    simp only [List.filter_cons, h₁, h₂, h₃, h₄, decide_eq_true_eq, List.filter_nil]
    grind
  have hothers : sortKeys ["9", "10", "9223372036854775808"] =
      ["10", "9", "9223372036854775808"] :=
    sortKeys_eq_of_others (by decide +kernel) (by decide) (by decide +kernel)
  obtain ⟨-, hsort, -, hall, htwice⟩ := sort_inOrder hrun.wellFormed 0
  refine ⟨steps, f, hrun, houter, hwalk, hinner, ?_, ?_, htwice⟩
  · rw [hsort.keys_of 0 rfl, houter, hintegers]
  · rw [hall.keys_of 2 ⟨["10"], hwalk⟩, hinner, hothers]

end Forest

end LayeredConf
