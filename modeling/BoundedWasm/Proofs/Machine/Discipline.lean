import BoundedWasm.Proofs.Machine.Moment

/-!
# BoundedWasm.Proofs.Machine.Discipline — every activation is closed as it was opened

Whatever a defined function does and however its call ends, its caller finds frame, depth, locals
and the operands below the arguments as they were; a call that returns leaves in the place of the
arguments the last operands of the body, as many as its type has results.
-/

namespace BoundedWasm

open BoundedWasm.Action Limits Machine

/-- A call at `moment` with `params` parameters came back to `s`, with `results` results: they are
the last operands of the body at the moment it was left, and they lie above its base. -/
def Moment.ReturnsTo (m : Module) (moment : Moment) (params results : Nat) (s : Machine) : Prop :=
  ∃ stopped answers, moment.Reaches m ⟨.body [], stopped, moment.machine.frame :: moment.callers⟩ ∧
    answers <:+ stopped.stack.toList ∧ answers.length = results ∧
    stopped.frame.stackBase + results ≤ stopped.stack.length ∧
    s.stack.toList
      = moment.machine.stack.toList.take (moment.machine.stack.length - params) ++ answers

namespace Machine

variable {m : Module} {s : Machine}

theorem invoke_restores (hm : m.CountsLocals) (hs : s.Framed) {index typeIndex : UInt32}
    {position : Nat} {type : FunctionType} (callers : List Frame)
    (hindex : m.function? index = some (.defined position typeIndex))
    (htype : m.types.get? typeIndex.toNat = some type) :
    (invoke m index).Ends s
      (fun _ s' => Restores type.params.length s s' ∧
        Moment.ReturnsTo m ⟨.calling index, s, callers⟩ type.params.length type.results.length s')
      (fun _ s' => Restores type.params.length s s') := by
  unfold Ends
  by_cases hdepth : s.depth < maxCallDepth
  · have hbody : ∀ body, Keeps Goes Fails (runBody m (invoke m) body) :=
      keeps_runBody (covers_frames m) (keeps_invoke hm)
    rw [invoke_defined hindex hdepth]
    generalize hend : callDefined m (invoke m) position typeIndex s = ending
    cases callDefined_cases hend with
    | bodyMissing hcode => exact .refl _ s
    | typeMissing hcode hmissing => exact .refl _ s
    | unopened hcode hother hopen =>
      obtain ⟨rfl, -⟩ := (openFrame_cases (hm.of_get? hcode) _ s).of_error hopen
      exact .refl _ _
    | stretchMissing hopen hstretch =>
      cases hopen.type_eq.symm.trans htype
      obtain ⟨hcode, rfl, hopens⟩ := hopen.opens hm
      have hstays : (entered position (frameFor _ _ s) _).Stays _ :=
        .refl (hopens.entered_framed hcode)
      exact (hopens.left_restores hstays).of_poison
    | failed hopen hstretch hrun =>
      cases hopen.type_eq.symm.trans htype
      obtain ⟨hcode, rfl, hopens⟩ := hopen.opens hm
      have hstays := (hbody _ _).of_error hrun (hopens.entered_framed hcode)
      exact (hopens.left_restores hstays).of_poison
    | short hopen hstretch hrun hshort =>
      cases hopen.type_eq.symm.trans htype
      obtain ⟨hcode, rfl, hopens⟩ := hopen.opens hm
      obtain ⟨hstays, -⟩ := (hbody _ _).of_ok hrun (hopens.entered_framed hcode)
      exact (hopens.left_restores hstays).of_poison
    | @returned code _ frame opened body stopped hopen hstretch hrun hlong =>
      cases hopen.type_eq.symm.trans htype
      have hreaches : Moment.Reaches m ⟨.calling index, s, callers⟩
          ⟨.body [], stopped, s.frame :: callers⟩ :=
        .head (.enterBody hindex hdepth hopen hstretch) (Moment.reaches_of_runBody hrun)
      obtain ⟨hcode, rfl, hopens⟩ := hopen.opens hm
      obtain ⟨hstays, -⟩ := (hbody _ _).of_ok hrun (hopens.entered_framed hcode)
      refine ⟨hopens.returned_restores hstays hlong, stopped, _, hreaches, List.drop_suffix _ _, ?_,
        ?_, hopens.toList_keepEnds hstays hlong⟩
      · rw [List.length_drop, FixedVec.length_toList]
        omega
      · rw [show stopped.frame = frameFor code type s from hstays.frame]
        exact hlong
  · rw [invoke_deep hindex (Nat.le_of_not_lt hdepth)]
    exact .refl _ s

end Machine

/-- At every moment of every run the running activation stays within its part of the two stacks and
the windows of the open activations lie back to back.  A call of a defined function restores all of
its caller's part, whether it returns or fails, and one that returns puts exactly its results on top
of it. -/
theorem Moment.activation_discipline {m : Module} (hm : m.Prepared) {moment : Moment}
    (hmet : moment.Met m) :
    moment.Disciplined ∧
      ∀ index position typeIndex, moment.stage = .calling index →
        m.function? index = some (.defined position typeIndex) →
        ∃ type, m.types.get? typeIndex.toNat = some type ∧
          (invoke m index).Ends moment.machine
            (fun _ s' => Restores type.params.length moment.machine s' ∧
              moment.ReturnsTo m type.params.length type.results.length s')
            (fun _ s' => Restores type.params.length moment.machine s') := by
  have hdisciplined := hmet.disciplined hm.countsLocals
  refine ⟨hdisciplined, fun index position typeIndex hstage hindex => ?_⟩
  obtain ⟨type, htype⟩ := hm.exists_type hindex
  obtain ⟨stage, s, callers⟩ := moment
  cases hstage
  exact ⟨type, htype, invoke_restores hm.countsLocals hdisciplined.framed callers hindex htype⟩

theorem Moment.adder_disciplined : (Moment.start 1 adderMachine).Disciplined ∧
    ∃ s, invoke .adder 1 adderMachine = .ok () s ∧ Restores 1 adderMachine s ∧
      s.stack.toList = [.i32 12] := by
  have hmet : (Moment.start 1 adderMachine).Met .adder :=
    ⟨1, adderMachine, adderMachine_reachable, .refl⟩
  obtain ⟨hdisciplined, hcalls⟩ := Moment.activation_discipline Module.adder_prepared hmet
  have hindex : Module.adder.function? 1 = some (.defined 1 1) := by decide +kernel
  obtain ⟨type, htype, hends⟩ := hcalls 1 1 1 rfl hindex
  have hparams : type.params.length = 1 := by
    have hlookup : (Module.adder.types.get? 1).map (fun type => type.params.length) = some 1 := by
      decide +kernel
    rw [show Module.adder.types.get? 1 = some type from htype] at hlookup
    simpa using hlookup
  obtain ⟨s, hrun, hstack⟩ := adderMachine_answers
  obtain ⟨hrestores, -⟩ := hends.of_ok hrun
  rw [hparams] at hrestores
  exact ⟨hdisciplined, s, hrun, hrestores, hstack⟩

end BoundedWasm
