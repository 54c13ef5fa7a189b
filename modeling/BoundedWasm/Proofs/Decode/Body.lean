import BoundedWasm.Proofs.ActionLogic
import BoundedWasm.Proofs.Module.WellFormed

/-!
# BoundedWasm.Proofs.Decode.Body — a body is put behind what the table holds

Reading a body changes nothing of the instructions that were in the table before, whether it comes
to its end or not: it puts new ones behind them, and when it succeeds at least one, the last of
which is an `end` (`expression_ends`).  The one place where an instruction is changed afterwards is
the opening of a block, and blocks are opened in the same body.
-/

namespace BoundedWasm.Body

open BoundedWasm.Action

variable {cap : Nat}

/-- `pool` is `old` with a body behind it. -/
structure Extends (old pool : List Instruction) : Prop where
  isPrefix : old <+: pool
  length_lt : old.length < pool.length
  endsAt : EndsAt pool (pool.length - 1)

theorem ends_reading {α : Type} {p : Parser α} {b : Body cap} {Q : α → Body cap → Prop}
    {E : Fault → Body cap → Prop} (h : ∀ a r, Q a { b with reader := r })
    (hE : ∀ fault r, E fault { b with reader := r }) : (reading p).Ends b Q E := by
  unfold reading
  rw [ends_onPart]
  exact ends_of (fun a r _ => h a r) (fun fault r _ => hE fault r)

theorem prefix_set {old pool : List Instruction} (h : old <+: pool) {i : Nat}
    (hi : old.length ≤ i) (x : Instruction) : old <+: pool.set i x := by
  obtain ⟨t, rfl⟩ := h
  rw [List.set_append_right _ _ hi]
  exact List.prefix_append _ _

theorem ends_close {old : List Instruction} {opening ending : Nat} {b : Body cap}
    {E : Fault → Body cap → Prop} (h : old <+: b.pool.toList) (hle : old.length ≤ opening) :
    (close opening ending).Ends b
      (fun _ b' => old <+: b'.pool.toList ∧ b'.pool.length = b.pool.length) E := by
  unfold close
  rw [ends_modify]
  cases b.pool.get? opening with
  | none => exact ⟨h, rfl⟩
  | some i =>
    simp only
    rw [FixedVec.toList_set, FixedVec.length_set]
    exact ⟨prefix_set h hle _, rfl⟩

/-- The last instruction placed in a table that has room is its last. -/
theorem extends_put {old : List Instruction} {pool : FixedVec Instruction cap}
    (h : old <+: pool.toList) (hroom : pool.length < cap) {i : Instruction}
    (hi : i.opcode = .endBlock) : Extends old (pool.put i).toList := by
  rw [FixedVec.toList_put_of_lt hroom]
  refine ⟨h.trans (List.prefix_append _ _), ?_, i, ?_, hi⟩
  · have := h.length_le
    simp only [List.length_append, List.length_singleton]
    omega
  · simp

theorem instructions_ends {old : List Instruction} (room : Nat) (opened : List Nat) (b : Body cap)
    (hroom : b.pool.length + room = cap) (hold : old <+: b.pool.toList)
    (hopened : ∀ opening ∈ opened, old.length ≤ opening) :
    (instructions room opened).Ends b (fun _ b' => Extends old b'.pool.toList)
      (fun _ b' => old <+: b'.pool.toList) := by
  induction room generalizing opened b with
  | zero =>
    unfold instructions
    rw [ends_bind]
    exact ends_reading (fun _ _ => hold) (fun _ _ => hold)
  | succ room ih =>
    unfold instructions
    rw [ends_bind]
    refine ends_reading (fun next r => ?_) (fun _ _ => hold)
    have hlt : b.pool.length < cap := by omega
    have hput : old <+: (b.pool.put next).toList := by
      rw [FixedVec.toList_put_of_lt hlt]
      exact hold.trans (List.prefix_append _ _)
    have hlength : (b.pool.put next).length + room = cap := by
      rw [FixedVec.length_put, if_pos hlt]
      omega
    have hle : old.length ≤ b.pool.length := by
      simpa using hold.length_le
    simp only [place, ends_bind, ends_get, ends_modify, ends_pure]
    split
    · -- a block is opened in this body, behind `old`
      split
      · refine ih _ _ hlength hput fun opening h => ?_
        rcases List.mem_cons.mp h with rfl | h
        · exact hle
        · exact hopened opening h
      · exact hput
    · split
      · rename_i hend
        cases opened with
        | nil => exact extends_put hold hlt hend
        | cons opening outer =>
          rw [ends_bind]
          refine (ends_close hput (hopened opening List.mem_cons_self)).mono ?_ (fun _ _ => id)
          rintro _ b' ⟨hb', hlength'⟩
          exact ih _ _ (by rw [hlength']; exact hlength) hb' fun o ho =>
            hopened o (List.mem_cons_of_mem _ ho)
      · exact ih _ _ hlength hput hopened

/-- A body stands behind the old instructions, and the answer says where; what is no body leaves
them alone as well. -/
theorem expression_ends (b : Body cap) :
    expression.Ends b
      (fun span b' => Extends b.pool.toList b'.pool.toList ∧ span.1 = b.pool.length ∧
        span.1 + span.2 = b'.pool.length)
      (fun _ b' => b.pool.toList <+: b'.pool.toList) := by
  unfold expression
  simp only [ends_bind, ends_get, ends_pure]
  have hroom : b.pool.length + b.pool.free = cap := by
    have := b.pool.length_le
    rw [FixedVec.free]
    omega
  refine (instructions_ends b.pool.free [] b hroom (List.prefix_refl _) (by simp)).mono
    (fun _ b' h => ⟨h, trivial, ?_⟩) (fun _ _ => id)
  have hlt := h.length_lt
  simp only [FixedVec.length_toList] at hlt
  omega

end BoundedWasm.Body
