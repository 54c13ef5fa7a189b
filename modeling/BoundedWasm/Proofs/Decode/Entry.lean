import BoundedWasm.Proofs.ActionLogic
import BoundedWasm.Proofs.Module.WellFormed

/-!
# BoundedWasm.Proofs.Decode.Entry — what the entries of sections are like

`Yields P p` says that every answer of the parser `p` satisfies `P`.  The checks that a parser makes
on the bytes it reads become facts about its answer: limits lie in range and in order, indices refer
to types, constants have the expected type, groups of locals stay within their bound.
-/

namespace BoundedWasm

open Limits

namespace Parser

variable {α β : Type}

/-- Every answer of `p` satisfies `P`. -/
def Yields (P : α → Prop) (p : Parser α) : Prop :=
  ∀ r, p.Ends r (fun a _ => P a) (fun _ _ => True)

/-! ### Rules -/

section Rules

variable {P Q : α → Prop}

theorem yields_any (p : Parser α) : Yields (fun _ => True) p :=
  fun _ => Action.ends_of (fun _ _ _ => trivial) (fun _ _ _ => trivial)

theorem yields_pure {a : α} (h : P a) : Yields P (pure a) := fun _ => h

theorem yields_throw (fault : Fault) : Yields P (throw fault : Parser α) := fun _ => trivial

theorem Yields.mono {p : Parser α} (h : Yields P p) (hPQ : ∀ a, P a → Q a) : Yields Q p :=
  fun r => (h r).mono (fun a _ => hPQ a) (fun _ _ => id)

theorem Yields.bind {P : β → Prop} {p : Parser β} {next : β → Parser α} (hp : Yields P p)
    (hnext : ∀ b, P b → Yields Q (next b)) : Yields Q (p >>= next) := by
  intro r
  rw [Action.ends_bind]
  exact (hp r).mono (fun b r' hb => hnext b hb r') (fun _ _ => id)

/-- After a parser of whose answer nothing need be known. -/
theorem yields_after {p : Parser β} {next : β → Parser α} (hnext : ∀ b, Yields Q (next b)) :
    Yields Q (p >>= next) :=
  (yields_any p).bind fun b _ => hnext b

theorem Yields.map {Q : β → Prop} {p : Parser α} {f : α → β} (hp : Yields P p)
    (hf : ∀ a, P a → Q (f a)) : Yields Q (f <$> p) := by
  intro r
  rw [Action.ends_map]
  exact (hp r).mono (fun a _ ha => hf a ha) (fun _ _ => id)

end Rules

/-! ### Limits -/

/-- The maximum, if there is one, is not below the minimum. -/
def Ordered (limits : SizeLimits) : Prop := ∀ max, limits.max = some max → limits.min ≤ max

theorem sizeLimits_yields : Yields Ordered sizeLimits := by
  refine yields_after fun flag => ?_
  split
  · exact yields_after fun min => yields_pure fun max h => by cases h
  · refine yields_after fun min => yields_after fun max => ?_
    show Yields Ordered (if max < min then _ else _)
    split
    · exact yields_throw _
    · rename_i hle
      refine yields_pure fun max' h => ?_
      cases h
      exact UInt32.not_lt.mp hle
  · exact yields_throw _

theorem memoryLimits_yields : Yields SizeLimits.InPages memoryLimits := by
  refine sizeLimits_yields.bind fun limits hordered => ?_
  show Yields SizeLimits.InPages (if _ = true then _ else _)
  split
  · exact yields_throw _
  · rename_i hpages
    rw [Bool.or_eq_true, not_or] at hpages
    obtain ⟨hmin, hmax⟩ := hpages
    refine yields_pure ⟨by simpa using hmin, fun max h => ⟨hordered max h, ?_⟩⟩
    rw [h] at hmax
    simpa using hmax

/-! ### Imports and globals -/

theorem typeIndex_yields (types : Nat) :
    Yields (fun index => index.toNat < types) (typeIndex types) := by
  refine yields_after fun index => ?_
  show Yields _ (if types ≤ index.toNat then _ else _)
  split
  · exact yields_throw _
  · exact yields_pure (by omega)

theorem importDesc_yields (types : Nat) :
    Yields (fun desc => desc.FitsTypes types) (importDesc types) := by
  refine yields_after fun kind => ?_
  split
  · refine (typeIndex_yields types).bind fun index hlt => yields_pure ?_
    exact .of_typeIndex rfl hlt rfl
  · refine yields_after fun reference => ?_
    show Yields _ (if reference ∉ referenceTypes then _ else _)
    split
    · exact yields_throw _
    · exact yields_after fun limits => yields_pure (.of_none rfl rfl)
  · refine memoryLimits_yields.bind fun limits hpages => yields_pure ⟨fun i h => ?_, fun l h => ?_⟩
    · cases h
    · cases h
      exact hpages
  · exact yields_after fun type => yields_pure (.of_none rfl rfl)
  · refine yields_after fun tag => ?_
    show Yields _ (if tag ≠ 0 then _ else _)
    split
    · exact yields_throw _
    · refine (typeIndex_yields types).bind fun index hlt => yields_pure ?_
      exact .of_typeIndex rfl hlt rfl
  · exact yields_throw _

theorem importEntry_yields (types : Nat) :
    Yields (fun entry => entry.desc.FitsTypes types) (importEntry types) :=
  yields_after fun _ => yields_after fun _ =>
    (importDesc_yields types).bind fun _ hdesc => yields_pure hdesc

theorem constant_yields (expected : ValueType) :
    Yields (fun value => value.type = expected) (constant expected) := by
  refine yields_after fun code => ?_
  split
  · exact yields_throw _
  · refine yields_after fun value => yields_after fun close => ?_
    show Yields _ (if _ then _ else _)
    split
    · exact yields_throw _
    · show Yields _ (if value.type ≠ expected then _ else _)
      split
      · exact yields_throw _
      · rename_i htype
        exact yields_pure (Decidable.not_not.mp htype)

theorem globalEntry_yields : Yields Global.Typed globalEntry :=
  yields_after fun type => (constant_yields type.valueType).bind fun _ htype => yields_pure htype

/-! ### Groups of locals -/

/-- The groups read after `total` locals stay with them within the bound. -/
theorem localGroups_yields (count total : Nat) (htotal : total ≤ maxLocalsPerFunction) :
    Yields (fun groups => total + LocalGroup.total groups ≤ maxLocalsPerFunction)
      (localGroups count total) := by
  induction count generalizing total with
  | zero => exact yields_pure htotal
  | succ count ih =>
    refine yields_after fun number => yields_after fun type => ?_
    show Yields _ (if maxLocalsPerFunction < total + number.toNat then _ else _)
    split
    · exact yields_throw _
    · rename_i hle
      refine (ih (total + number.toNat) (by omega)).bind fun groups hgroups => yields_pure ?_
      simp only [LocalGroup.total]
      omega

end Parser

end BoundedWasm
