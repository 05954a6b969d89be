import LayeredConf.Dispatcher

/-!
# Sessions

What happens on a dispatcher, move by move.  A listener can do anything when it is called: register,
remove, begin an emit of its own, fail.  So a session is any sequence of moves, where emits in
progress lie one in another: only the innermost one calls its next listener, and it is left when it
is through or when a failure passes it.

    Session.play s moves    the dispatcher and the emits in progress after some moves
    exists_moves            steps run from a script are a session that leaves no emit open
-/

namespace LayeredConf.Dispatcher

/-- An emit in progress and the registrations that it has still to call. -/
structure Emission where
  type : String
  detail : Value
  ahead : List Registration

/-- A dispatcher and the emits in progress on it, the innermost one first. -/
structure Session where
  bus : Dispatcher := {}
  emits : List Emission := []

inductive Move where
  | on (type listener : String)
  | once (type listener : String)
  | off (type listener : String)
  | undo (index : Nat)
  /-- An emit begins. -/
  | emit (type : String) (detail : Value)
  /-- The innermost emit calls its next listener, if there is one. -/
  | call
  /-- The innermost emit is left, whether it is through or not. -/
  | leave

namespace Session

def onBus (s : Session) (change : Dispatcher → Dispatcher) : Session :=
  { s with bus := change s.bus }

def after (s : Session) : Move → Session
  | .on type listener => s.onBus (·.register type (.always listener))
  | .once type listener => s.onBus fun d => d.register type (.once d.made.length listener)
  | .off type listener => s.onBus (·.remove type (.always listener))
  | .undo index =>
    match s.bus.made[index]? with
    | some (type, r) => s.onBus (·.remove type r)
    | none => s
  | .emit type detail => { s with emits := ⟨type, detail, s.bus.registrations type⟩ :: s.emits }
  | .call =>
    match s.emits with
    | ⟨type, detail, r :: rs⟩ :: emits =>
      { bus := s.bus.deliver type detail r, emits := ⟨type, detail, rs⟩ :: emits }
    | _ => s
  | .leave => { s with emits := s.emits.tail }

def play (s : Session) (moves : List Move) : Session := moves.foldl after s

theorem play_append (s : Session) (moves moves' : List Move) :
    s.play (moves ++ moves') = (s.play moves).play moves' := List.foldl_append

theorem play_concat (s : Session) (moves : List Move) (m : Move) :
    s.play (moves ++ [m]) = (s.play moves).after m := play_append s moves [m]

end Session

/-! ## Scripts -/

/-- Some moves take one dispatcher to the other, whatever emits are in progress. -/
def Leads (d d' : Dispatcher) : Prop :=
  ∃ moves, ∀ emits, (⟨d, emits⟩ : Session).play moves = ⟨d', emits⟩

section

variable {d d' d'' : Dispatcher}

theorem Leads.refl (d : Dispatcher) : Leads d d := ⟨[], fun _ => rfl⟩

theorem Leads.trans (h : Leads d d') (h' : Leads d' d'') : Leads d d'' := by
  obtain ⟨moves, hmoves⟩ := h
  obtain ⟨moves', hmoves'⟩ := h'
  refine ⟨moves ++ moves', fun emits => ?_⟩
  rw [Session.play_append, hmoves, hmoves']

/-- An emit in progress calls some of the listeners that it has ahead. -/
def Delivers (d : Dispatcher) (type : String) (detail : Value) (rs : List Registration)
    (d' : Dispatcher) : Prop :=
  ∃ moves rs', ∀ emits, (⟨d, ⟨type, detail, rs⟩ :: emits⟩ : Session).play moves =
    ⟨d', ⟨type, detail, rs'⟩ :: emits⟩

variable {type : String} {detail : Value} {r : Registration} {rs : List Registration}

theorem Delivers.refl (d : Dispatcher) : Delivers d type detail rs d := ⟨[], rs, fun _ => rfl⟩

/-- One call, what the listener does, and the calls after it. -/
theorem Delivers.cons (h : Leads (d.deliver type detail r) d')
    (h' : Delivers d' type detail rs d'') : Delivers d type detail (r :: rs) d'' := by
  obtain ⟨moves, hmoves⟩ := h
  obtain ⟨moves', rs', hmoves'⟩ := h'
  refine ⟨.call :: (moves ++ moves'), rs', fun emits => ?_⟩
  show ((⟨d, ⟨type, detail, r :: rs⟩ :: emits⟩ : Session).after .call).play (moves ++ moves') = _
  rw [Session.play_append]
  exact (congrArg (Session.play · moves') (hmoves _)).trans (hmoves' emits)

theorem Delivers.leads (h : Delivers d type detail (d.registrations type) d') : Leads d d' := by
  obtain ⟨moves, rs', hmoves⟩ := h
  refine ⟨.emit type detail :: (moves ++ [.leave]), fun emits => ?_⟩
  show ((⟨d, emits⟩ : Session).after (.emit type detail)).play (moves ++ [.leave]) = _
  rw [Session.play_concat]
  exact congrArg (Session.after · .leave) (hmoves emits)

end

section

variable (script : Script)

/-- A step that is no emit is one move, or none. -/
theorem leads_perform (fuel : Nat) (d : Dispatcher) (step : Step)
    (hstep : ∀ type detail, step ≠ .emit type detail) : Leads d (perform script fuel d step).1 := by
  cases step with
  | on type listener =>
    exact ⟨[.on type listener], fun _ => by cases fuel <;> rfl⟩
  | once type listener =>
    exact ⟨[.once type listener], fun _ => by cases fuel <;> rfl⟩
  | off type listener =>
    exact ⟨[.off type listener], fun _ => by cases fuel <;> rfl⟩
  | undo index =>
    refine ⟨[.undo index], fun emits => ?_⟩
    show (⟨d, emits⟩ : Session).after (.undo index) = _
    rw [perform, Session.after]
    cases d.made[index]? with
    | none => rfl
    | some e => rfl
  | emit type detail => exact absurd rfl (hstep type detail)
  | count type => exact ⟨[], fun _ => by cases fuel <;> rfl⟩
  | raise text => exact ⟨[], fun _ => by cases fuel <;> rfl⟩

/-- With all fuel used up, nothing is called. -/
theorem leads_zero (d : Dispatcher) (step : Step) : Leads d (perform script 0 d step).1 := by
  by_cases hstep : ∃ type detail, step = .emit type detail
  · obtain ⟨type, detail, rfl⟩ := hstep
    exact .refl d
  · exact leads_perform script 0 d step fun type detail h => hstep ⟨type, detail, h⟩

section

variable {script : Script} {fuel : Nat}

theorem leads_emit (h : ∀ d type detail rs, Delivers d type detail rs
      (callAll script fuel d type detail rs).1) (d : Dispatcher) (step : Step) :
    Leads d (perform script (fuel + 1) d step).1 := by
  by_cases hstep : ∃ type detail, step = .emit type detail
  · obtain ⟨type, detail, rfl⟩ := hstep
    have hcalls := (h d type detail (d.registrations type)).leads
    rw [perform]
    split
    · exact .refl d
    · split
      · next heq => rwa [heq] at hcalls
      · next heq => rwa [heq] at hcalls
  · exact leads_perform script (fuel + 1) d step fun type detail h => hstep ⟨type, detail, h⟩

theorem delivers_callAll (hrun : ∀ d steps, Leads d (run script fuel d steps).1)
    (h : ∀ d type detail rs, Delivers d type detail rs (callAll script fuel d type detail rs).1)
    (d : Dispatcher) (type : String) (detail : Value) (rs : List Registration) :
    Delivers d type detail rs (callAll script (fuel + 1) d type detail rs).1 := by
  cases rs with
  | nil => exact .refl d
  | cons r rs =>
    have hlistener := hrun (d.deliver type detail r) ((script.lookup r.listener).getD [])
    rw [callAll]
    split
    · next d' heq =>
      rw [heq] at hlistener
      exact .cons hlistener (h d' type detail rs)
    · next d' e heq =>
      rw [heq] at hlistener
      exact .cons hlistener (.refl d')

theorem leads_run (hperform : ∀ d step, Leads d (perform script fuel d step).1)
    (h : ∀ d steps, Leads d (run script fuel d steps).1) (d : Dispatcher) (steps : List Step) :
    Leads d (run script (fuel + 1) d steps).1 := by
  cases steps with
  | nil => exact .refl d
  | cons step steps =>
    have hstep := hperform d step
    rw [run]
    split
    · next d' a heq =>
      rw [heq] at hstep
      exact hstep.trans (h d' steps)
    · next d' e heq => rwa [heq] at hstep

end

theorem leads_all (fuel : Nat) :
    (∀ d step, Leads d (perform script fuel d step).1) ∧
    (∀ d type detail rs, Delivers d type detail rs (callAll script fuel d type detail rs).1) ∧
    ∀ d steps, Leads d (run script fuel d steps).1 := by
  induction fuel with
  | zero =>
    refine ⟨leads_zero script, fun d type detail rs => ?_, fun d steps => ?_⟩
    · cases rs <;> exact .refl d
    · cases steps <;> exact .refl d
  | succ fuel ih =>
    obtain ⟨hperform, hcalls, hrun⟩ := ih
    exact ⟨leads_emit hcalls, delivers_callAll hrun hcalls, leads_run hperform hrun⟩

end

/-- Steps from outside, each of which may fail, are a session that begins and ends with no emit in
progress. -/
theorem exists_moves (script : Script) (fuel : Nat) (steps : List Step) :
    ∃ moves, ({} : Session).play moves =
      ⟨steps.foldl (fun d step => (perform script fuel d step).1) {}, []⟩ := by
  have hfold (d : Dispatcher) :
      Leads d (steps.foldl (fun d step => (perform script fuel d step).1) d) := by
    induction steps generalizing d with
    | nil => exact .refl d
    | cons step steps ih => exact ((leads_all script fuel).1 d step).trans (ih _)
  obtain ⟨moves, hmoves⟩ := hfold {}
  exact ⟨moves, hmoves []⟩

end LayeredConf.Dispatcher
