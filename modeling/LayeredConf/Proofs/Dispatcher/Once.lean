import LayeredConf.Proofs.Dispatcher.Sessions
import Mathlib.Data.List.Nodup

/-!
# Registrations made once

A wrapper removes itself when it is called, so no emit that begins later calls it.  But an emit that
is in progress then still has it ahead, and calls it again.  So the calls that a session owes to a
registration made once, those made and those ahead, grow beyond one just when an emit begins, while
it is registered, during another emit that has it ahead.

    Session.owed s r          the calls of `r` that are made and those ahead
    Session.exists_drain      emits that go on to their ends make all calls that are owed
    Session.Admits r          the move begins no such emit
    once_calls_le_one_iff     nothing is called twice iff no such emit begins
    once_called_twice         a listener that emits its own type ahead of a wrapper
-/

namespace LayeredConf.Dispatcher

/-- The number of calls that a registration led to. -/
def callsBy (d : Dispatcher) (r : Registration) : Nat := (d.calls.map (·.registration)).count r

namespace Session

/-- The number of calls of a registration that emits in progress have ahead. -/
def ahead (s : Session) (r : Registration) : Nat := (s.emits.flatMap (·.ahead)).count r

def owed (s : Session) (r : Registration) : Nat := s.bus.callsBy r + s.ahead r

end Session

/-- Only calls and ends: what emits in progress do when nothing else happens. -/
def Passive (moves : List Move) : Prop := ∀ m ∈ moves, m = .call ∨ m = .leave

/-! ## Counting calls -/

section

variable (d : Dispatcher) (type : String) (detail : Value) (r r' : Registration)

theorem calls_deliver : (d.deliver type detail r).calls = d.calls ++ [⟨r, detail⟩] := by
  cases r <;> rfl

theorem callsBy_deliver :
    (d.deliver type detail r).callsBy r' = d.callsBy r' + if r = r' then 1 else 0 := by
  rw [callsBy, calls_deliver, List.map_append, List.count_append, List.map_singleton,
    List.count_singleton]
  simp [callsBy]

end

namespace Session

section

variable (s : Session) (r : Registration)

theorem ahead_cons (e : Emission) (emits : List Emission) (bus : Dispatcher) :
    (⟨bus, e :: emits⟩ : Session).ahead r = e.ahead.count r + (⟨bus, emits⟩ : Session).ahead r := by
  rw [ahead, ahead, List.flatMap_cons, List.count_append]

/-- Emits that go on can only make calls that are owed. -/
theorem owed_passive {m : Move} (hm : m = .call ∨ m = .leave) : (s.after m).owed r ≤ s.owed r := by
  obtain ⟨bus, emits⟩ := s
  rcases hm with rfl | rfl
  · match emits with
    | [] => exact Nat.le_refl _
    | ⟨type, detail, []⟩ :: emits => exact Nat.le_refl _
    | ⟨type, detail, r' :: rs⟩ :: emits =>
      show (⟨bus.deliver type detail r', ⟨type, detail, rs⟩ :: emits⟩ : Session).owed r ≤ _
      rw [owed, owed, ahead_cons, ahead_cons, callsBy_deliver, List.count_cons]
      show _ + _ + (_ + ahead ⟨bus, emits⟩ r) ≤ _
      simp only [beq_iff_eq]
      omega
  · cases emits with
    | nil => exact Nat.le_refl _
    | cons e emits =>
      show (⟨bus, emits⟩ : Session).owed r ≤ _
      rw [owed, owed, ahead_cons]
      show bus.callsBy r + _ ≤ bus.callsBy r + _
      omega

theorem owed_play_passive {moves : List Move} (h : Passive moves) :
    (s.play moves).owed r ≤ s.owed r := by
  induction moves generalizing s with
  | nil => exact Nat.le_refl _
  | cons m moves ih =>
    obtain ⟨hm, hmoves⟩ := List.forall_mem_cons.mp h
    exact Nat.le_trans (ih (s.after m) hmoves) (s.owed_passive r hm)

/-- The innermost emit calls all its listeners. -/
theorem exists_calls (bus : Dispatcher) (type : String) (detail : Value) (rs : List Registration)
    (emits : List Emission) : ∃ moves bus', Passive moves ∧
      (⟨bus, ⟨type, detail, rs⟩ :: emits⟩ : Session).play moves = ⟨bus', emits⟩ ∧
      bus'.callsBy r = bus.callsBy r + rs.count r := by
  induction rs generalizing bus with
  | nil => exact ⟨[.leave], bus, by simp [Passive], rfl, rfl⟩
  | cons r' rs ih =>
    obtain ⟨moves, bus', hpassive, hplay, hcalls⟩ := ih (bus.deliver type detail r')
    refine ⟨.call :: moves, bus', List.forall_mem_cons.mpr ⟨Or.inl rfl, hpassive⟩, hplay, ?_⟩
    rw [hcalls, callsBy_deliver, List.count_cons]
    simp only [beq_iff_eq]
    omega

/-- Emits that go on to their ends make all calls that are owed. -/
theorem exists_drain : ∃ moves, Passive moves ∧ (s.play moves).bus.callsBy r = s.owed r := by
  obtain ⟨bus, emits⟩ := s
  induction emits generalizing bus with
  | nil => exact ⟨[], by simp [Passive], rfl⟩
  | cons e emits ih =>
    obtain ⟨moves, bus', hpassive, hplay, hcalls⟩ :=
      exists_calls r bus e.type e.detail e.ahead emits
    obtain ⟨moves', hpassive', hdrain⟩ := ih bus'
    refine ⟨moves ++ moves', List.forall_mem_append.mpr ⟨hpassive, hpassive'⟩, ?_⟩
    rw [play_append, hplay, hdrain, owed, owed, ahead_cons]
    show bus'.callsBy r + ahead ⟨bus', emits⟩ r = bus.callsBy r + (_ + ahead ⟨bus', emits⟩ r)
    rw [hcalls]
    omega

end

end Session

/-! ## Registered once -/

/-- A registration made once has its own number, which says where it was made; it is registered
nowhere else, and nowhere at all when it has been called. -/
structure Session.Sound (s : Session) : Prop where
  distinct : s.bus.registered.Nodup
  registered : ∀ type n l, (type, .once n l) ∈ s.bus.registered →
    s.bus.made[n]? = some (type, .once n l)
  ahead : ∀ e ∈ s.emits, ∀ n l, .once n l ∈ e.ahead → s.bus.made[n]? = some (e.type, .once n l)
  called : ∀ n l, 0 < s.bus.callsBy (.once n l) → n < s.bus.made.length ∧
    ∀ type, (type, .once n l) ∉ s.bus.registered

section

variable {d : Dispatcher} {type : String} {r : Registration}

theorem mem_registrations : r ∈ d.registrations type ↔ (type, r) ∈ d.registered := by
  simp [registrations]

theorem count_registrations (h : d.registered.Nodup) : (d.registrations type).count r ≤ 1 := by
  refine List.nodup_iff_count_le_one.mp ?_ r
  refine (h.filter _).map_on fun a ha b hb hab => Prod.ext ?_ hab
  have hat := of_decide_eq_true (List.mem_filter.mp ha).2
  have hbt := of_decide_eq_true (List.mem_filter.mp hb).2
  rw [hat, hbt]

theorem mem_register {type' : String} {r' : Registration} :
    (type', r') ∈ (d.register type r).registered ↔
      (type', r') ∈ d.registered ∨ (type', r') = (type, r) := by
  unfold register
  dsimp only
  split
  · next h =>
    constructor
    · exact Or.inl
    · rintro (hm | heq)
      · exact hm
      · rwa [heq]
  · rw [List.mem_append, List.mem_singleton]

theorem made_register {n : Nat} {x : String × Registration} (h : d.made[n]? = some x) :
    (d.register type r).made[n]? = some x := by
  have hlt := (List.getElem?_eq_some_iff.mp h).1
  show (d.made ++ [(type, r)])[n]? = some x
  rwa [List.getElem?_append_left hlt]

theorem made_deliver (detail : Value) : (d.deliver type detail r).made = d.made := by
  cases r <;> rfl

theorem mem_of_mem_deliver {detail : Value} {x : String × Registration}
    (h : x ∈ (d.deliver type detail r).registered) : x ∈ d.registered := by
  cases r with
  | always l => exact h
  | once n l => exact (List.mem_filter.mp h).1

/-- A wrapper that is called removes itself. -/
theorem not_mem_deliver (detail : Value) (n : Nat) (l : String) :
    (type, .once n l) ∉ (d.deliver type detail (.once n l)).registered := by
  intro h
  simpa using (List.mem_filter.mp h).2

end

namespace Session.Sound

variable {s : Session} (h : s.Sound)

include h

theorem register (type : String) {r : Registration}
    (hr : ∀ n l, r = .once n l → n = s.bus.made.length) : (s.onBus (·.register type r)).Sound where
  distinct := by
    show (s.bus.register type r).registered.Nodup
    unfold Dispatcher.register
    dsimp only
    split
    · exact h.distinct
    · next hnew =>
      refine List.nodup_append.mpr ⟨h.distinct, List.nodup_singleton _, ?_⟩
      refine fun a ha b hb hab => hnew ?_
      rwa [← List.mem_singleton.mp hb, ← hab]
  registered type' n l hm := by
    rcases mem_register.mp hm with hm | hm
    · exact made_register (h.registered type' n l hm)
    · cases hm
      show (s.bus.made ++ [(type, Registration.once n l)])[n]? = _
      rw [hr n l rfl, List.getElem?_append_right (Nat.le_refl _), Nat.sub_self]
      rfl
  ahead e he n l hm := made_register (h.ahead e he n l hm)
  called n l hcalls := by
    obtain ⟨hlt, hnot⟩ := h.called n l hcalls
    have hlen : (s.bus.register type r).made.length = s.bus.made.length + 1 := List.length_append
    refine ⟨?_, fun type' hm => ?_⟩
    · show n < (s.bus.register type r).made.length
      omega
    · rcases mem_register.mp hm with hm | hm
      · exact hnot type' hm
      · cases hm
        exact absurd (hr n l rfl) (Nat.ne_of_lt hlt)

theorem remove (type : String) (r : Registration) : (s.onBus (·.remove type r)).Sound where
  distinct := h.distinct.filter _
  registered type' n l hm := h.registered type' n l (List.mem_filter.mp hm).1
  ahead := h.ahead
  called n l hcalls :=
    (h.called n l hcalls).imp_right fun hnot type' hm => hnot type' (List.mem_filter.mp hm).1

theorem emit (type : String) (detail : Value) : (s.after (.emit type detail)).Sound where
  distinct := h.distinct
  registered := h.registered
  ahead e he n l hm := by
    rcases List.mem_cons.mp he with rfl | he
    · exact h.registered type n l (mem_registrations.mp hm)
    · exact h.ahead e he n l hm
  called := h.called

theorem deliver {type : String} {detail : Value} {r : Registration} {rs : List Registration}
    {emits : List Emission} (hemits : s.emits = ⟨type, detail, r :: rs⟩ :: emits) :
    (⟨s.bus.deliver type detail r, ⟨type, detail, rs⟩ :: emits⟩ : Session).Sound where
  distinct := by
    cases r with
    | always l => exact h.distinct
    | once n l => exact h.distinct.filter _
  registered type' n l hm := by
    rw [made_deliver]
    exact h.registered type' n l (mem_of_mem_deliver hm)
  ahead e he n l hm := by
    rw [made_deliver]
    rcases List.mem_cons.mp he with rfl | he
    · exact h.ahead ⟨type, detail, r :: rs⟩ (hemits ▸ List.mem_cons_self) n l
        (List.mem_cons_of_mem _ hm)
    · exact h.ahead e (hemits ▸ List.mem_cons_of_mem _ he) n l hm
  called n l hcalls := by
    show n < (s.bus.deliver type detail r).made.length ∧ _
    rw [made_deliver]
    by_cases hr : r = .once n l
    · subst hr
      have hmade := h.ahead ⟨type, detail, .once n l :: rs⟩ (hemits ▸ List.mem_cons_self) n l
        List.mem_cons_self
      refine ⟨(List.getElem?_eq_some_iff.mp hmade).1, fun type' hm => ?_⟩
      have hreg := h.registered type' n l (mem_of_mem_deliver hm)
      rw [hmade] at hreg
      cases hreg
      exact not_mem_deliver detail n l hm
    · have hsame : s.bus.callsBy (.once n l) =
          (s.bus.deliver type detail r).callsBy (.once n l) := by
        rw [callsBy_deliver, if_neg hr, Nat.add_zero]
      exact (h.called n l (hsame ▸ hcalls)).imp_right fun hnot type' hm =>
        hnot type' (mem_of_mem_deliver hm)

theorem call : (s.after .call).Sound := by
  rw [Session.after]
  split
  · next type detail r rs emits hemits => exact h.deliver hemits
  · exact h

theorem leave : (s.after .leave).Sound where
  distinct := h.distinct
  registered := h.registered
  ahead e he := h.ahead e (List.mem_of_mem_tail he)
  called := h.called

theorem after (m : Move) : (s.after m).Sound := by
  cases m with
  | on type listener => exact h.register type fun _ _ hr => nomatch hr
  | once type listener =>
    refine h.register type fun n l hr => ?_
    cases hr
    rfl
  | off type listener => exact h.remove type _
  | undo index =>
    rw [Session.after]
    split
    · exact h.remove _ _
    · exact h
  | emit type detail => exact h.emit type detail
  | call => exact h.call
  | leave => exact h.leave

end Session.Sound

/-! ## Emits that begin during others -/

namespace Session

/-- No emit of a type that has the registration begins while an emit in progress has it ahead. -/
def Admits (r : Registration) (s : Session) : Move → Prop
  | .emit type _ => r ∈ s.bus.registrations type → ∀ e ∈ s.emits, r ∉ e.ahead
  | _ => True

/-- No emit of a type begins while that type is being emitted. -/
def Nests (s : Session) : Move → Prop
  | .emit type _ => ∀ e ∈ s.emits, e.type ≠ type
  | _ => True

/-- Each of the moves has the property in the session that it is made in. -/
def Along (P : Session → Move → Prop) (s : Session) : List Move → Prop
  | [] => True
  | m :: moves => P s m ∧ (s.after m).Along P moves

instance (r : Registration) (s : Session) (m : Move) : Decidable (s.Admits r m) :=
  match m with
  | .emit type _ =>
    inferInstanceAs (Decidable (r ∈ s.bus.registrations type → ∀ e ∈ s.emits, r ∉ e.ahead))
  | .on _ _ | .once _ _ | .off _ _ | .undo _ | .call | .leave => inferInstanceAs (Decidable True)

instance (s : Session) (m : Move) : Decidable (s.Nests m) :=
  match m with
  | .emit type _ => inferInstanceAs (Decidable (∀ e ∈ s.emits, e.type ≠ type))
  | .on _ _ | .once _ _ | .off _ _ | .undo _ | .call | .leave => inferInstanceAs (Decidable True)

instance Along.decidable (P : Session → Move → Prop) [∀ s m, Decidable (P s m)] (s : Session) :
    (moves : List Move) → Decidable (s.Along P moves)
  | [] => inferInstanceAs (Decidable True)
  | m :: moves =>
    haveI := Along.decidable P (s.after m) moves
    inferInstanceAs (Decidable (P s m ∧ (s.after m).Along P moves))

section

variable {s : Session} {n : Nat} {l : String} {m : Move} {moves : List Move}

/-- Registered for one type, a wrapper is ahead only in emits of that type. -/
theorem Sound.admits (h : s.Sound) (hm : s.Nests m) : s.Admits (.once n l) m := by
  cases m with
  | emit type detail =>
    intro hr e he hahead
    have hmade := h.registered type n l (mem_registrations.mp hr)
    rw [h.ahead e he n l hahead] at hmade
    cases hmade
    exact hm e he rfl
  | _ => trivial

theorem Sound.along (h : s.Sound) (hm : s.Along Nests moves) :
    s.Along (Admits (.once n l)) moves := by
  induction moves generalizing s with
  | nil => trivial
  | cons m moves ih => exact ⟨h.admits hm.1, ih (h.after m) hm.2⟩

/-- An emit leaves at most one call owed, if the emits in progress do not have it ahead. -/
theorem Sound.owed_emit (h : s.Sound) {type : String} (hr : .once n l ∈ s.bus.registrations type)
    (detail : Value) :
    (s.after (.emit type detail)).owed (.once n l) = s.ahead (.once n l) + 1 := by
  have hcalls : s.bus.callsBy (.once n l) = 0 := by
    refine Nat.eq_zero_of_not_pos fun hpos => ?_
    exact (h.called n l hpos).2 type (mem_registrations.mp hr)
  have hle : (s.bus.registrations type).count (.once n l) ≤ 1 := count_registrations h.distinct
  have hpos : 0 < (s.bus.registrations type).count (.once n l) := List.count_pos_iff.mpr hr
  show (⟨s.bus, ⟨type, detail, s.bus.registrations type⟩ :: s.emits⟩ : Session).owed _ = _
  rw [owed, ahead_cons]
  show s.bus.callsBy _ + ((s.bus.registrations type).count _ + s.ahead _) = _
  omega

theorem Sound.owed_after (h : s.Sound) (hone : s.owed (.once n l) ≤ 1)
    (hm : s.Admits (.once n l) m) : (s.after m).owed (.once n l) ≤ 1 := by
  cases m with
  | on type listener => exact hone
  | once type listener => exact hone
  | off type listener => exact hone
  | undo index =>
    rw [Session.after]
    split
    · exact hone
    · exact hone
  | emit type detail =>
    by_cases hr : .once n l ∈ s.bus.registrations type
    · have hahead : s.ahead (.once n l) = 0 := by
        refine List.count_eq_zero.mpr fun hmem => ?_
        obtain ⟨e, he, hmem⟩ := List.mem_flatMap.mp hmem
        exact hm hr e he hmem
      exact Nat.le_of_eq (by rw [h.owed_emit hr, hahead])
    · show (⟨s.bus, ⟨type, detail, s.bus.registrations type⟩ :: s.emits⟩ : Session).owed _ ≤ 1
      rw [owed, ahead_cons]
      show s.bus.callsBy _ + ((s.bus.registrations type).count _ + s.ahead _) ≤ 1
      rw [List.count_eq_zero.mpr hr, Nat.zero_add]
      exact hone
  | call => exact Nat.le_trans (s.owed_passive _ (Or.inl rfl)) hone
  | leave => exact Nat.le_trans (s.owed_passive _ (Or.inr rfl)) hone

/-- Conversely, two calls are owed as soon as such an emit has begun. -/
theorem Sound.admits_of_owed (h : s.Sound) (hone : (s.after m).owed (.once n l) ≤ 1) :
    s.Admits (.once n l) m := by
  cases m with
  | emit type detail =>
    intro hr e he hahead
    rw [h.owed_emit hr] at hone
    have hpos : 0 < s.ahead (.once n l) :=
      List.count_pos_iff.mpr (List.mem_flatMap.mpr ⟨e, he, hahead⟩)
    omega
  | _ => trivial

/-- Whatever the emits in progress still do, a wrapper is called at most once. -/
theorem Sound.owed_le_one_iff (h : s.Sound) (hone : s.owed (.once n l) ≤ 1) :
    (∀ before rest, before <+: moves → Passive rest →
      (s.play (before ++ rest)).bus.callsBy (.once n l) ≤ 1) ↔
    s.Along (Admits (.once n l)) moves := by
  constructor
  · intro hcalls
    induction moves generalizing s with
    | nil => trivial
    | cons m moves ih =>
      obtain ⟨rest, hpassive, hdrain⟩ := (s.after m).exists_drain (.once n l)
      have hnext : (s.after m).owed (.once n l) ≤ 1 :=
        hdrain ▸ hcalls [m] rest (List.prefix_append [m] moves) hpassive
      refine ⟨h.admits_of_owed hnext, ih (h.after m) hnext fun before rest hbefore hrest => ?_⟩
      exact hcalls (m :: before) rest (List.cons_prefix_cons.mpr ⟨rfl, hbefore⟩) hrest
  · intro halong before rest hbefore hrest
    induction before generalizing s moves with
    | nil =>
      have howed := Nat.le_trans (s.owed_play_passive _ hrest) hone
      exact Nat.le_trans (Nat.le_add_right _ _) howed
    | cons m before ih =>
      obtain ⟨after, rfl⟩ := hbefore
      exact ih (h.after m) (h.owed_after hone halong.1) halong.2 (List.prefix_append _ _)

end

theorem sound_empty : ({} : Session).Sound :=
  ⟨List.nodup_nil, nofun, nofun, fun _ _ h => absurd h (Nat.lt_irrefl 0)⟩

end Session

/-- What is done with a dispatcher is a session, and a registration made once is called at most
once, there and however the emits in progress go on, iff no emit begins while it is registered for
the type and another emit has it ahead.  So it is when no type is emitted during an emit of it. -/
theorem once_calls_le_one_iff (script : Script) (fuel : Nat) (steps : List Step) (moves : List Move)
    (n : Nat) (listener : String) :
    (∃ moves, ({} : Session).play moves =
      ⟨steps.foldl (fun d step => (perform script fuel d step).1) {}, []⟩) ∧
    ((∀ before rest, before <+: moves → Passive rest →
        (({} : Session).play (before ++ rest)).bus.callsBy (.once n listener) ≤ 1) ↔
      ({} : Session).Along (Session.Admits (.once n listener)) moves) ∧
    (({} : Session).Along Session.Nests moves →
      (({} : Session).play moves).bus.callsBy (.once n listener) ≤ 1) := by
  have hone : ({} : Session).owed (.once n listener) ≤ 1 := Nat.zero_le 1
  refine ⟨exists_moves script fuel steps, Session.sound_empty.owed_le_one_iff hone,
    fun hnests => ?_⟩
  have hcalls := (Session.sound_empty.owed_le_one_iff hone).mpr (Session.sound_empty.along hnests)
    moves [] (List.prefix_refl _) nofun
  rwa [List.append_nil] at hcalls

/-- An emit of another type during an emit, and the same type again when it is over. -/
theorem once_calls_nested :
    let moves : List Move := [.on "t" "a", .once "t" "w", .emit "t" .unset, .call,
      .emit "u" .unset, .leave, .call, .leave, .emit "t" .unset]
    ({} : Session).Along Session.Nests moves ∧
      (({} : Session).play moves).bus.callsBy (.once 1 "w") = 1 ∧
      (({} : Session).play moves).bus.callsBy (.once 1 "w") ≤ 1 ∧
      (({} : Session).play (moves ++ [.call])).bus.callsBy (.once 1 "w") ≤ 1 := by
  intro moves
  have hnests : ({} : Session).Along Session.Nests moves := by decide
  have hadmits : ({} : Session).Along (Session.Admits (.once 1 "w")) moves := by decide
  obtain ⟨-, hiff, hcalls⟩ := once_calls_le_one_iff [("a", [.emit "u" .unset])] 10
    [.on "t" "a", .once "t" "w", .emit "t" .unset, .emit "t" .unset] moves 1 "w"
  refine ⟨hnests, by decide, hcalls hnests, ?_⟩
  exact hiff.mpr hadmits moves [.call] (List.prefix_refl _) (by simp [Passive])

/-- A listener ahead of the wrapper takes itself off and emits the type again.  That emit calls the
wrapper, which is still ahead in the first one and is called there too. -/
theorem once_called_twice :
    let script : Script := [("again", [.off "t" "again", .emit "t" .unset]), ("w", [])]
    let steps : List Step := [.on "t" "again", .once "t" "w", .emit "t" .unset]
    (steps.foldl (fun d step => (perform script 10 d step).1) {}).callsBy (.once 1 "w") = 2 := by
  decide

end LayeredConf.Dispatcher
