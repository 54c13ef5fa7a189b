import BoundedWasm.Proofs.ActionLogic
import BoundedWasm.Proofs.Module.WellFormed

/-!
# BoundedWasm.Proofs.Decode.Tables — a section touches its own tables only

`Module.without` takes the tables away that sections of a kind add to.  Reading the payload of a
section leaves the rest of the module as it was, whatever the outcome (`contents_touches`).
-/

namespace BoundedWasm

open Limits

/-- The module without the tables that sections of the kind add to. -/
def Module.without (m : Module) : SectionId → Module
  | .type => { m with types := .empty }
  | .imports => { m with imports := .empty, bindings := .empty }
  | .function => { m with functions := .empty }
  | .memory => { m with memories := .empty }
  | .global => { m with globals := .empty }
  | .exports => { m with exports := .empty }
  | .start => { m with start := none }
  | .code => { m with codes := .empty, instructions := .empty }
  | .data => { m with data := .empty }
  | .dataCount => { m with dataCount := none }
  | .custom | .table | .element => m

namespace Draft

open BoundedWasm.Action

variable {id : SectionId}

/-- Of the module nothing but the tables of sections of the kind is changed. -/
def Touches (id : SectionId) (d d' : Draft) : Prop := d'.module.without id = d.module.without id

theorem chains_touches (id : SectionId) : Chains (Touches id) (Touches id) where
  refl _ := rfl
  fails _ := rfl
  trans h h' := h'.trans h
  trans_fails h h' := h'.trans h

/-- Actions that change nothing but the tables of a kind, whatever their end. -/
abbrev TouchesOnly {α : Type} (id : SectionId) (action : Action Draft α) : Prop :=
  Keeps (Touches id) (Touches id) action

theorem touches_reading {α : Type} (p : Parser α) : TouchesOnly id (reading p) := by
  intro d
  unfold reading
  rw [ends_onPart]
  exact ends_of (fun _ _ _ => rfl) (fun _ _ _ => rfl)

theorem touches_update {f : Module → Except Fault Module}
    (hf : ∀ m m', f m = .ok m' → m'.without id = m.without id) : TouchesOnly id (update f) := by
  intro d
  unfold update
  rw [ends_bind, ends_get, ends_bind, ends_ofExcept]
  exact ⟨fun m' hm' => hf _ m' hm', fun _ _ => rfl⟩

theorem touches_times {action : Action Draft Unit} (h : TouchesOnly id action) (count : Nat) :
    TouchesOnly id (times action count) := by
  induction count with
  | zero => exact .pure (chains_touches id) _
  | succ count ih => exact .bind (chains_touches id) h fun _ => ih

theorem touches_entries {entry : Action Draft Unit} (h : TouchesOnly id entry)
    (free : Module → Nat) : TouchesOnly id (entries free entry) :=
  .get (chains_touches id) fun _ =>
    .bind (chains_touches id) (touches_reading _) fun _ => touches_times h _

/-- What is read is put into a table of the kind. -/
theorem touches_reading_update {α : Type} {p : Parser α} {f : α → Module → Except Fault Module}
    (hf : ∀ a m m', f a m = .ok m' → m'.without id = m.without id) :
    TouchesOnly id (do
      let a ← reading p
      update (f a)) :=
  .bind (chains_touches id) (touches_reading _) fun a => touches_update (hf a)

theorem tableSection_touches : TouchesOnly id tableSection :=
  .bind (chains_touches id) (touches_reading _) fun _ =>
    .ite (fun _ => .throw (chains_touches id) _) (fun _ => .pure (chains_touches id) _)

theorem typeSection_touches : TouchesOnly .type typeSection := by
  refine touches_entries (touches_reading_update fun type m m' h => ?_) _
  obtain ⟨w, -, rfl⟩ := Module.grow_ok (fun types => { m with types }) h
  rfl

theorem importSection_touches : TouchesOnly .imports importSection := by
  refine touches_entries (.get (chains_touches _) fun _ => ?_) _
  refine .bind (chains_touches _) (touches_reading _) fun entry => ?_
  refine .bind (chains_touches _) (touches_update fun m m' h => ?_) fun _ =>
    touches_update fun m m' h => ?_
  · obtain ⟨w, -, rfl⟩ := Module.grow_ok (fun imports => { m with imports }) h
    rfl
  · obtain ⟨w, -, rfl⟩ := Module.grow_ok (fun bindings => { m with bindings }) h
    rfl

theorem functionSection_touches : TouchesOnly .function functionSection := by
  refine touches_entries (.get (chains_touches _) fun _ => ?_) _
  refine touches_reading_update fun index m m' h => ?_
  obtain ⟨w, -, rfl⟩ := Module.grow_ok (fun functions => { m with functions }) h
  rfl

theorem memorySection_touches : TouchesOnly .memory memorySection := by
  refine .get (chains_touches _) fun _ => .bind (chains_touches _) (touches_reading _) fun _ => ?_
  refine .ite (fun _ => .throw (chains_touches _) _) fun _ => ?_
  refine touches_times (touches_reading_update fun limits m m' h => ?_) _
  obtain ⟨w, -, rfl⟩ := Module.grow_ok (fun memories => { m with memories }) h
  rfl

theorem globalSection_touches : TouchesOnly .global globalSection := by
  refine touches_entries (touches_reading_update fun entry m m' h => ?_) _
  obtain ⟨w, -, rfl⟩ := Module.grow_ok (fun globals => { m with globals }) h
  rfl

theorem exportSection_touches : TouchesOnly .exports exportSection := by
  refine touches_entries (touches_reading_update fun entry m m' h => ?_) _
  obtain ⟨w, -, rfl⟩ := Module.grow_ok (fun exports => { m with exports }) h
  rfl

theorem startSection_touches : TouchesOnly .start startSection :=
  .bind (chains_touches _) (touches_reading _) fun _ _ => rfl

theorem dataCountSection_touches : TouchesOnly .dataCount dataCountSection :=
  .bind (chains_touches _) (touches_reading _) fun _ _ => rfl

theorem code_touches (size : UInt32) : TouchesOnly .code (code size) := by
  refine .bind (chains_touches _) (touches_reading _) fun groups => ?_
  refine .bind (chains_touches _) (.ofExcept (chains_touches _) _) fun locals => ?_
  refine .bind (chains_touches _) (fun d => ?_) fun span => .get (chains_touches _) fun d => ?_
  · unfold onBody
    rw [ends_onPart]
    exact ends_of (fun _ _ _ => rfl) (fun _ _ _ => rfl)
  · refine .ite (fun _ => .throw (chains_touches _) _) fun _ => touches_update fun m m' h => ?_
    obtain ⟨w, -, rfl⟩ := Module.grow_ok (fun codes => { m with codes }) h
    rfl

theorem codeSection_touches : TouchesOnly .code codeSection := by
  refine .get (chains_touches _) fun _ => .bind (chains_touches _) (touches_reading _) fun _ => ?_
  refine .ite (fun _ => .throw (chains_touches _) _) fun _ => touches_times ?_ _
  refine .bind (chains_touches _) (touches_reading _) fun size => ?_
  refine .bind (chains_touches _) (touches_reading _) fun part d => ?_
  unfold within
  rw [ends_onPart]
  exact code_touches size _

theorem dataSection_touches : TouchesOnly .data dataSection := by
  refine .get (chains_touches _) fun _ => .bind (chains_touches _) (touches_reading _) fun _ => ?_
  refine .ite (fun _ => .throw (chains_touches _) _) fun _ => touches_times ?_ _
  refine touches_reading_update fun segment m m' h => ?_
  obtain ⟨w, -, rfl⟩ := Module.grow_ok (fun data => { m with data }) h
  rfl

/-- A section changes no table but its own, whether it can be read or not. -/
theorem contents_touches (id : SectionId) : TouchesOnly id (contents id) := by
  cases id with
  | custom => exact .pure (chains_touches _) _
  | type => exact typeSection_touches
  | imports => exact importSection_touches
  | function => exact functionSection_touches
  | table => exact tableSection_touches
  | memory => exact memorySection_touches
  | global => exact globalSection_touches
  | exports => exact exportSection_touches
  | start => exact startSection_touches
  | element => exact tableSection_touches
  | code => exact codeSection_touches
  | data => exact dataSection_touches
  | dataCount => exact dataCountSection_touches

end Draft

end BoundedWasm
