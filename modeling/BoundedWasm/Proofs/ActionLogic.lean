import BoundedWasm.Action

/-!
# BoundedWasm.Proofs.ActionLogic — a small logic of actions

`Ends action s Q E` says how `action` ends when it starts in `s`: an answer and the state after it
satisfy `Q`, a fault and the state after it satisfy `E`.  One rule for every way to put actions
together, so that a statement about a long action becomes one about its parts.  `Keeps R E action`
is the case of two relations between the state before and the state after.
-/

namespace BoundedWasm.Action

variable {σ τ α β : Type}

/-- How `action` ends from `s`: in an answer and a state of `Q`, or in a fault and a state of
`E`. -/
def Ends (action : Action σ α) (s : σ) (Q : α → σ → Prop) (E : Fault → σ → Prop) : Prop :=
  match action s with
  | .ok a s' => Q a s'
  | .error fault s' => E fault s'

/-- The state in which an action leaves off, whatever its end. -/
def after (action : Action σ α) (s : σ) : σ :=
  match action s with
  | .ok _ s' => s'
  | .error _ s' => s'

/-- The fault in which an action ends, if it ends in one. -/
def fault? (action : Action σ α) (s : σ) : Option Fault :=
  match action s with
  | .ok _ _ => none
  | .error fault _ => some fault

/-! ### Runs of composed actions -/

theorem bind_run (action : Action σ β) (next : β → Action σ α) (s : σ) :
    (action >>= next) s = match action s with
      | .ok b s' => next b s'
      | .error fault s' => .error fault s' := by
  show EStateM.bind action next s = _
  unfold EStateM.bind
  cases action s <;> rfl

theorem map_run (f : β → α) (action : Action σ β) (s : σ) :
    (f <$> action) s = match action s with
      | .ok b s' => .ok (f b) s'
      | .error fault s' => .error fault s' := by
  show EStateM.map f action s = _
  unfold EStateM.map
  cases action s <;> rfl

theorem get_run (s : σ) : (get : Action σ σ) s = .ok s s := rfl

theorem ofExcept_ok_run (a : α) (s : σ) : (ofExcept (.ok a) : Action σ α) s = .ok a s := rfl

theorem ofExcept_map_bind (answer : Except Fault α) (f : α → β) (next : β → Action σ τ) :
    (ofExcept (answer.map f) >>= next : Action σ τ) = ofExcept answer >>= fun a => next (f a) := by
  cases answer <;> rfl

theorem after_eq_of_error {action : Action σ α} {s s' : σ} {fault : Fault}
    (h : action s = .error fault s') : action.after s = s' := by
  rw [after, h]

theorem ok_of_mem_toOption {ε : Type} {outcome : Except ε α} {a : α} (h : a ∈ outcome.toOption) :
    outcome = .ok a := by
  cases outcome <;> cases h
  rfl

theorem exists_ok_of_isOk {ε : Type} {outcome : Except ε α} (h : outcome.isOk = true) :
    ∃ a, outcome = .ok a := by
  cases outcome with
  | ok a => exact ⟨a, rfl⟩
  | error _ => cases h

theorem run_of_fault?_none {action : Action σ α} {s : σ} (h : action.fault? s = none) :
    ∃ a, action s = .ok a (action.after s) := by
  unfold fault? at h
  split at h
  · rename_i a s' hrun
    exact ⟨a, by rw [after, hrun]⟩
  · cases h

theorem run_of_fault?_some {action : Action σ α} {s : σ} {fault : Fault}
    (h : action.fault? s = some fault) : action s = .error fault (action.after s) := by
  unfold fault? at h
  split at h
  · cases h
  · rename_i found s' hrun
    cases h
    rw [after, hrun]

/-! ### Rules -/

section Rules

variable {s : σ} {Q : α → σ → Prop} {E : Fault → σ → Prop}

theorem Ends.mono {action : Action σ α} {Q' : α → σ → Prop} {E' : Fault → σ → Prop}
    (h : action.Ends s Q E) (hQ : ∀ a s', Q a s' → Q' a s') (hE : ∀ f s', E f s' → E' f s') :
    action.Ends s Q' E' := by
  unfold Ends at *
  split
  · rename_i heq
    rw [heq] at h
    exact hQ _ _ h
  · rename_i heq
    rw [heq] at h
    exact hE _ _ h

theorem Ends.of_ok {action : Action σ α} {a : α} {s' : σ} (h : action.Ends s Q E)
    (heq : action s = .ok a s') : Q a s' := by
  unfold Ends at h
  rwa [heq] at h

theorem Ends.of_error {action : Action σ α} {fault : Fault} {s' : σ} (h : action.Ends s Q E)
    (heq : action s = .error fault s') : E fault s' := by
  unfold Ends at h
  rwa [heq] at h

theorem ends_of {action : Action σ α} (hok : ∀ a s', action s = .ok a s' → Q a s')
    (herror : ∀ fault s', action s = .error fault s' → E fault s') : action.Ends s Q E := by
  unfold Ends
  split
  · exact hok _ _ ‹_›
  · exact herror _ _ ‹_›

theorem Ends.and {action : Action σ α} {Q' : α → σ → Prop} {E' : Fault → σ → Prop}
    (h : action.Ends s Q E) (h' : action.Ends s Q' E') :
    action.Ends s (fun a s' => Q a s' ∧ Q' a s') (fun f s' => E f s' ∧ E' f s') :=
  ends_of (fun _ _ heq => ⟨h.of_ok heq, h'.of_ok heq⟩)
    (fun _ _ heq => ⟨h.of_error heq, h'.of_error heq⟩)

@[simp] theorem ends_pure (a : α) : (pure a : Action σ α).Ends s Q E ↔ Q a s := Iff.rfl

@[simp] theorem ends_throw (fault : Fault) :
    (throw fault : Action σ α).Ends s Q E ↔ E fault s := Iff.rfl

@[simp] theorem ends_bind {action : Action σ β} {next : β → Action σ α} :
    (action >>= next).Ends s Q E ↔ action.Ends s (fun b s' => (next b).Ends s' Q E) E := by
  unfold Ends
  rw [bind_run]
  cases action s <;> rfl

@[simp] theorem ends_map {action : Action σ β} {f : β → α} :
    (f <$> action).Ends s Q E ↔ action.Ends s (fun b s' => Q (f b) s') E := by
  unfold Ends
  rw [map_run]
  cases action s <;> rfl

@[simp] theorem ends_get {Q : σ → σ → Prop} : (get : Action σ σ).Ends s Q E ↔ Q s s := Iff.rfl

@[simp] theorem ends_modify (f : σ → σ) {Q : PUnit → σ → Prop} :
    (modify f : Action σ PUnit).Ends s Q E ↔ Q ⟨⟩ (f s) := Iff.rfl

@[simp] theorem ends_ofExcept (answer : Except Fault α) :
    (ofExcept answer : Action σ α).Ends s Q E ↔
      (∀ a, answer = .ok a → Q a s) ∧ ∀ fault, answer = .error fault → E fault s := by
  cases answer with
  | ok a => simp [ofExcept]
  | error fault => simp [ofExcept]

@[simp] theorem ends_onPart {part : σ → τ} {update : σ → τ → σ} {action : Action τ α} :
    (onPart part update action).Ends s Q E ↔
      action.Ends (part s) (fun a t => Q a (update s t)) (fun f t => E f (update s t)) := by
  unfold Ends onPart
  cases action (part s) <;> rfl

@[simp] theorem ends_observe {action : Action σ α} {Q : Except Fault α → σ → Prop} :
    action.observe.Ends s Q E ↔
      action.Ends s (fun a s' => Q (.ok a) s') (fun f s' => Q (.error f) s') := by
  unfold Ends observe
  cases action s <;> rfl

/-- Repetition with an invariant that counts the rounds. -/
theorem ends_times {action : Action σ Unit} {E : Fault → σ → Prop} (I : Nat → σ → Prop)
    (hstep : ∀ k s, I k s → action.Ends s (fun _ s' => I (k + 1) s') E) (count k : Nat) {s : σ}
    (hs : I k s) : (times action count).Ends s (fun _ s' => I (k + count) s') E := by
  induction count generalizing k s with
  | zero => exact hs
  | succ count ih =>
    show (action >>= fun _ => times action count).Ends s _ E
    rw [ends_bind]
    refine (hstep k s hs).mono (fun _ s' hs' => ?_) (fun _ _ => id)
    rw [show k + (count + 1) = k + 1 + count by omega]
    exact ih (k + 1) hs'

end Rules

/-! ### Relations between before and after -/

/-- From every state, `action` ends by an answer in a state related by `R`, or by a fault in a state
related by `E`. -/
def Keeps (R E : σ → σ → Prop) (action : Action σ α) : Prop :=
  ∀ s, action.Ends s (fun _ s' => R s s') (fun _ s' => E s s')

/-- What `R` and `E` must satisfy for `Keeps` to pass through sequences of actions. -/
structure Chains (R E : σ → σ → Prop) : Prop where
  refl : ∀ s, R s s
  fails : ∀ s, E s s
  trans : ∀ {s s' s''}, R s s' → R s' s'' → R s s''
  trans_fails : ∀ {s s' s''}, R s s' → E s' s'' → E s s''

namespace Keeps

variable {R E : σ → σ → Prop}

theorem pure (hR : Chains R E) (a : α) : Keeps R E (Pure.pure a : Action σ α) := fun s => hR.refl s

theorem throw (hR : Chains R E) (fault : Fault) :
    Keeps R E (MonadExcept.throw fault : Action σ α) := fun s => hR.fails s

theorem ofExcept (hR : Chains R E) (answer : Except Fault α) :
    Keeps R E (Action.ofExcept answer : Action σ α) := by
  intro s
  rw [ends_ofExcept]
  exact ⟨fun _ _ => hR.refl s, fun _ _ => hR.fails s⟩

theorem bind (hR : Chains R E) {action : Action σ α} {next : α → Action σ β}
    (h : Keeps R E action) (hnext : ∀ a, Keeps R E (next a)) : Keeps R E (action >>= next) := by
  intro s
  rw [ends_bind]
  refine (h s).mono (fun a s' hs => ?_) (fun _ _ hs => hs)
  exact (hnext a s').mono (fun _ _ hs' => hR.trans hs hs') (fun _ _ hs' => hR.trans_fails hs hs')

theorem get (hR : Chains R E) {next : σ → Action σ β} (hnext : ∀ a, Keeps R E (next a)) :
    Keeps R E (MonadState.get >>= next) :=
  bind hR (fun s => hR.refl s) hnext

theorem discard (hR : Chains R E) {action : Action σ α} (h : Keeps R E action) :
    Keeps R E (Functor.discard action) :=
  bind hR h fun _ => pure hR _

theorem ite {c : Prop} [Decidable c] {action other : Action σ α} (h : c → Keeps R E action)
    (hother : ¬ c → Keeps R E other) : Keeps R E (if c then action else other) := by
  split
  · exact h ‹_›
  · exact hother ‹_›

theorem after {action : Action σ α} (h : Keeps R R action) (s : σ) : R s (action.after s) := by
  unfold Action.after
  cases heq : action s with
  | ok a s' => exact (h s).of_ok heq
  | error fault s' => exact (h s).of_error heq

end Keeps

end BoundedWasm.Action
