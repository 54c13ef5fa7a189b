import BoundedWasm.Proofs.Machine.Moment

/-!
# BoundedWasm.Proofs.Machine.Room — runs that find room for everything

A push is refused when the operand stack is full, a call when too many activations are open or their
locals leave no room (`Moment.Refused`).  That nothing is refused in a run (`Moment.Unrefused`) can
be found out by running it: `fitsWithin` looks at each moment on the way, and decides the property.
-/

namespace BoundedWasm

open BoundedWasm.Action Limits

namespace Moment

/-- Something is about to fail here because a stack is full or because calls nest too deeply. -/
inductive Refused (m : Module) : Moment → Prop
  | push {value : Value} {next : Except Fault Unit → Native} {s : Machine} {callers : List Frame}
    (hfull : s.stack.length = maxOperandStack) :
    Refused m ⟨.native (.push value next), s, callers⟩
  | instruction {i : Instruction} {rest : List Instruction} {work : Instruction → Exec Flow}
    {s s' : Machine} {callers : List Frame} (hopcode : i.opcode ≠ .call)
    (hwork : Machine.handler? m (Machine.invoke m) i.opcode = some work)
    (hrun : work i s = .error .stackOverflow s') (hfull : s'.stack.length = maxOperandStack) :
    Refused m ⟨.body (i :: rest), s, callers⟩
  | depth {index : UInt32} {position : Nat} {typeIndex : UInt32} {s : Machine}
    {callers : List Frame} (hindex : m.function? index = some (.defined position typeIndex))
    (hdepth : maxCallDepth ≤ s.depth) : Refused m ⟨.calling index, s, callers⟩
  | locals {index : UInt32} {position : Nat} {typeIndex : UInt32} {code : Code}
    {type : FunctionType} {s s' : Machine} {callers : List Frame}
    (hindex : m.function? index = some (.defined position typeIndex))
    (hcode : m.codes.get? position = some code)
    (htype : m.types.get? typeIndex.toNat = some type)
    (hopen : Machine.openFrame code type s = .error .localsExhausted s') :
    Refused m ⟨.calling index, s, callers⟩

/-- Nothing is refused from a moment on. -/
def Unrefused (m : Module) (moment : Moment) : Prop :=
  ∀ later, Reaches m moment later → ¬ Refused m later

variable {m : Module}

theorem unrefused_iff {moment : Moment} :
    Unrefused m moment ↔
      ¬ Refused m moment ∧ ∀ next, Step m moment next → Unrefused m next := by
  constructor
  · intro h
    exact ⟨h moment .refl, fun next hstep later hlater => h later (.head hstep hlater)⟩
  · rintro ⟨hnow, hnext⟩ later hlater
    rcases Relation.ReflTransGen.cases_head hlater with rfl | ⟨next, hstep, hlater'⟩
    · exact hnow
    · exact hnext next hstep later hlater'

theorem Unrefused.now {moment : Moment} (h : Unrefused m moment) : ¬ Refused m moment :=
  (unrefused_iff.mp h).1

theorem Unrefused.step {moment next : Moment} (h : Unrefused m moment)
    (hstep : Step m moment next) : Unrefused m next :=
  (unrefused_iff.mp h).2 next hstep

/-- Where there is one way to go on, everything depends on it. -/
theorem unrefused_of_only {moment next : Moment} (hnow : ¬ Refused m moment)
    (hstep : Step m moment next) (honly : ∀ other, Step m moment other → other = next) :
    Unrefused m moment ↔ Unrefused m next := by
  rw [unrefused_iff]
  constructor
  · rintro ⟨-, hnext⟩
    exact hnext next hstep
  · intro h
    refine ⟨hnow, fun other hother => ?_⟩
    rw [honly other hother]
    exact h

theorem unrefused_over (s : Machine) (callers : List Frame) : Unrefused m ⟨.over, s, callers⟩ :=
  unrefused_iff.mpr ⟨(fun h => by cases h), (fun _ h => by cases h)⟩

theorem unrefused_nil (s : Machine) (callers : List Frame) : Unrefused m ⟨.body [], s, callers⟩ :=
  unrefused_iff.mpr ⟨(fun h => by cases h), (fun _ h => by cases h)⟩

end Moment

/-! ### Finding out -/

/-- Whether a native function finds room for all that it pushes. -/
def Native.fits : Native → Machine → Bool
  | finish _, _ => true
  | push value next, s =>
    s.stack.length < maxOperandStack && fits (next (.ok ())) { s with stack := s.stack.put value }
  | pop next, s =>
    match Machine.pop s with
    | .ok value s' => fits (next (.ok value)) s'
    | .error fault s' => fits (next (.error fault)) s'
  | memorySize next, s => fits (next s.memory.size) s
  | readMemory start length next, s => fits (next (s.memory.bytes? start length)) s
  | writeMemory start bytes next, s =>
    match s.memory.overwrite? start bytes with
    | some memory => fits (next true) { s with memory }
    | none => fits (next false) s
  | readCell cell next, s => fits (next (s.host.cells.read cell)) s
  | writeCell cell bits next, s =>
    fits next { s with host := { s.host with cells := s.host.cells.write cell bits } }
  | report entry next, s =>
    fits next { s with host := { s.host with reports := s.host.reports.push entry } }

namespace Machine

variable (m : Module)

/-- Whether an instruction that is a call finds room for it. -/
def callFits (calling : UInt32 → Machine → Bool) (i : Instruction) (s : Machine) : Bool :=
  match i.opcode, i.index with
  | .call, .ok index => calling index s
  | _, _ => true

/-- Whether the instructions of a body find room; `calling` answers for the calls they make. -/
def bodyFits (calling : UInt32 → Machine → Bool) : List Instruction → Machine → Bool
  | [], _ => true
  | i :: rest, s =>
    match handler? m (invoke m) i.opcode with
    | none => true
    | some work =>
      callFits calling i s && match work i s with
        | .ok .next s' => bodyFits calling rest s'
        | .ok .leave _ => true
        | .error fault s' =>
          i.opcode = .call || fault ≠ .stackOverflow || s'.stack.length ≠ maxOperandStack

/-- Whether a call of a defined function finds room for its locals and in its body. -/
def definedFits (calling : UInt32 → Machine → Bool) (position : Nat) (typeIndex : UInt32)
    (s : Machine) : Bool :=
  match m.codes.get? position, m.types.get? typeIndex.toNat with
  | some code, some type =>
    match openFrame code type s with
    | .error fault _ => fault ≠ .localsExhausted
    | .ok frame opened =>
      match m.body code with
      | .error _ => true
      | .ok body => bodyFits m calling body (entered position frame opened)
  | _, _ => true

/-- Whether a call finds room; `defined` answers for the functions of the module. -/
def fitsBy (defined : Nat → UInt32 → Machine → Bool) (index : UInt32) (s : Machine) : Bool :=
  match m.function? index with
  | none => true
  | some (.imported position _) =>
    match bindingOf m position with
    | .function binding =>
      s.stack.length < s.frame.stackBase + binding.inputs
        || binding.callback.fits (called position s)
    | _ => true
  | some (.defined position typeIndex) => defined position typeIndex s

/-- Whether a call finds room when `room` more activations may open. -/
def fitsWithin : (room : Nat) → UInt32 → Machine → Bool
  | 0 => fitsBy m fun _ _ _ => false
  | room + 1 => fitsBy m (definedFits m (fitsWithin room))

end Machine

open Moment Machine

variable {m : Module} {s : Machine} {callers : List Frame}

theorem Native.fits_iff (native : Native) :
    native.fits s = true ↔ Unrefused m ⟨.native native, s, callers⟩ := by
  induction native generalizing s with
  | finish outcome =>
    refine ⟨fun _ => ?_, fun _ => rfl⟩
    rw [unrefused_of_only (by intro h; cases h) (.finished s callers) fun _ h => by cases h; rfl]
    exact unrefused_over s callers
  | push value next ih =>
    by_cases hlt : s.stack.length < maxOperandStack
    · have hpush : observe (Machine.push value) s
          = .ok (.ok ()) { s with stack := s.stack.put value } := by
        rw [observe, Machine.push, if_pos hlt]
      have hnow : ¬ Refused m ⟨.native (.push value next), s, callers⟩ := by
        intro h
        cases h with
        | push hfull => omega
      have honly : ∀ other, Step m ⟨.native (.push value next), s, callers⟩ other →
          other = ⟨.native (next (.ok ())), { s with stack := s.stack.put value }, callers⟩ := by
        intro other h
        cases h with
        | push hrun =>
          cases hpush.symm.trans hrun
          rfl
      rw [unrefused_of_only hnow (.push hpush) honly, ← ih]
      show (decide _ && _) = true ↔ _
      rw [decide_eq_true hlt, Bool.true_and]
    · have hfull : s.stack.length = maxOperandStack :=
        Nat.le_antisymm s.stack.length_le (Nat.le_of_not_lt hlt)
      refine ⟨fun h => ?_, fun h => absurd (.push hfull) h.now⟩
      exact absurd (of_decide_eq_true (Bool.and_eq_true_iff.mp h).1) hlt
  | pop next ih =>
    obtain ⟨answer, s', hpop, hfits⟩ : ∃ answer s', observe Machine.pop s = .ok answer s' ∧
        (Native.pop next).fits s = (next answer).fits s' := by
      have hfits : (Native.pop next).fits s = match Machine.pop s with
        | .ok value s' => (next (.ok value)).fits s'
        | .error fault s' => (next (.error fault)).fits s' := by
        conv => lhs; unfold Native.fits
      rw [hfits]
      unfold observe
      cases Machine.pop s with
      | ok value s' => exact ⟨_, _, rfl, rfl⟩
      | error fault s' => exact ⟨_, _, rfl, rfl⟩
    have honly : ∀ other, Step m ⟨.native (.pop next), s, callers⟩ other →
        other = ⟨.native (next answer), s', callers⟩ := by
      intro other h
      cases h with
      | pop hrun =>
        cases hpop.symm.trans hrun
        rfl
    rw [unrefused_of_only (by intro h; cases h) (.pop hpop) honly, hfits]
    exact ih answer
  | memorySize next ih =>
    rw [unrefused_of_only (by intro h; cases h) (.memorySize s callers) fun _ h => by cases h; rfl]
    exact ih _
  | readMemory start length next ih =>
    rw [unrefused_of_only (by intro h; cases h) (.readMemory s callers) fun _ h => by cases h; rfl]
    exact ih _
  | writeMemory start bytes next ih =>
    have hfits : (Native.writeMemory start bytes next).fits s
        = match s.memory.overwrite? start bytes with
          | some memory => (next true).fits { s with memory }
          | none => (next false).fits s := rfl
    rw [hfits]
    cases hwrite : s.memory.overwrite? start bytes with
    | some memory =>
      rw [unrefused_of_only (by intro h; cases h) (.writeMemory hwrite) fun _ h => by
        cases h with
        | writeMemory hwrite' =>
          cases hwrite.symm.trans hwrite'
          rfl
        | writeMemoryOutside hwrite' => cases hwrite.symm.trans hwrite']
      exact ih true
    | none =>
      rw [unrefused_of_only (by intro h; cases h) (.writeMemoryOutside hwrite) fun _ h => by
        cases h with
        | writeMemory hwrite' => cases hwrite.symm.trans hwrite'
        | writeMemoryOutside _ => rfl]
      exact ih false
  | readCell cell next ih =>
    rw [unrefused_of_only (by intro h; cases h) (.readCell s callers) fun _ h => by cases h; rfl]
    exact ih _
  | writeCell cell bits next ih =>
    rw [unrefused_of_only (by intro h; cases h) (.writeCell s callers) fun _ h => by cases h; rfl]
    exact ih
  | report entry next ih =>
    rw [unrefused_of_only (by intro h; cases h) (.report s callers) fun _ h => by cases h; rfl]
    exact ih

theorem callFits_iff {calling : UInt32 → Machine → Bool} {i : Instruction} :
    callFits calling i s = true ↔
      ∀ index, i.opcode = .call → i.index = .ok index → calling index s = true := by
  unfold callFits
  split
  · rename_i index hopcode hindex
    refine ⟨fun h other _ hother => ?_, fun h => h index hopcode hindex⟩
    cases hindex.symm.trans hother
    exact h
  · rename_i hnot
    exact ⟨fun _ index hopcode hindex => (hnot index hopcode hindex).elim, fun _ => rfl⟩

/-- A body finds room when the calls in it do, and none of its own instructions meets a full
stack. -/
theorem bodyFits_iff {calling : UInt32 → Machine → Bool} {depth : Nat}
    (hcalling : ∀ {s} index, s.depth = depth →
      (calling index s = true ↔ Unrefused m ⟨.calling index, s, callers⟩))
    (body : List Instruction) (hdepth : s.depth = depth) :
    bodyFits m calling body s = true ↔ Unrefused m ⟨.body body, s, callers⟩ := by
  induction body generalizing s with
  | nil => exact ⟨fun _ => unrefused_nil s callers, fun _ => rfl⟩
  | cons i rest ih =>
    rw [unrefused_iff, bodyFits]
    cases hwork : handler? m (invoke m) i.opcode with
    | none =>
      have hne : i.opcode ≠ .call := by
        intro hcall
        rw [hcall] at hwork
        cases hwork
      refine ⟨fun _ => ⟨fun h => ?_, fun next h => ?_⟩, fun _ => rfl⟩
      · cases h with
        | instruction _ hwork' _ _ => cases hwork.symm.trans hwork'
      · cases h with
        | call hopcode _ => exact absurd hopcode hne
        | next hwork' _ => cases hwork.symm.trans hwork'
        | leave hwork' _ => cases hwork.symm.trans hwork'
        | failed hwork' _ => cases hwork.symm.trans hwork'
        | unsupported _ => exact unrefused_over _ _
    | some work =>
      have hstep : ∀ {s'}, work i s = .ok .next s' → s'.depth = depth := fun hrun =>
        ((handler?_keeps (covers_depth m) keepsDepth_invoke hwork i s).of_ok hrun).trans hdepth
      simp only [Bool.and_eq_true, callFits_iff]
      constructor
      · rintro ⟨hcalls, hrest⟩
        refine ⟨fun h => ?_, fun next h => ?_⟩
        · cases h with
          | instruction hne hwork' hrun hfull =>
            cases hwork.symm.trans hwork'
            rw [hrun] at hrest
            simp [hne, hfull] at hrest
        · cases h with
          | call hopcode hindex => exact (hcalling _ hdepth).mp (hcalls _ hopcode hindex)
          | next hwork' hrun =>
            cases hwork.symm.trans hwork'
            rw [hrun] at hrest
            exact (ih (hstep hrun)).mp hrest
          | leave hwork' hrun => exact unrefused_nil _ _
          | failed hwork' hrun => exact unrefused_over _ _
          | unsupported hwork' => exact unrefused_over _ _
      · rintro ⟨hnow, hnext⟩
        refine ⟨fun index hopcode hindex => ?_, ?_⟩
        · exact (hcalling index hdepth).mpr (hnext _ (.call hopcode hindex))
        · cases hrun : work i s with
          | ok flow s' =>
            cases flow with
            | next => exact (ih (hstep hrun)).mpr (hnext _ (.next hwork hrun))
            | leave => rfl
          | error fault s' =>
            by_cases hcall : i.opcode = .call
            · simp [hcall]
            by_cases hfault : fault = .stackOverflow
            · rw [hfault] at hrun
              have hroom : s'.stack.length ≠ maxOperandStack :=
                fun hfull => hnow (.instruction hcall hwork hrun hfull)
              simp [hroom]
            · simp [hfault]

theorem fitsBy_native_iff {index typeIndex : UInt32} {position : Nat}
    (hindex : m.function? index = some (.imported position typeIndex))
    (defined : Nat → UInt32 → Machine → Bool) :
    fitsBy m defined index s = true ↔ Unrefused m ⟨.calling index, s, callers⟩ := by
  have hnow : ¬ Refused m ⟨.calling index, s, callers⟩ := by
    intro h
    cases h with
    | depth hindex' _ => cases hindex.symm.trans hindex'
    | locals hindex' _ _ _ => cases hindex.symm.trans hindex'
  rw [unrefused_iff, fitsBy, hindex]
  constructor
  · intro h
    refine ⟨hnow, fun next hstep => ?_⟩
    cases hstep with
    | enterBody hindex' _ _ _ => cases hindex.symm.trans hindex'
    | returned => exact unrefused_over _ _
    | enterNative hindex' hbinding henough =>
      cases hindex.symm.trans hindex'
      simp only [hbinding, Bool.or_eq_true, decide_eq_true_iff] at h
      rcases h with hfew | hfits
      · omega
      · exact (Native.fits_iff _).mp hfits
  · rintro ⟨-, hnext⟩
    simp only []
    split
    · rename_i binding hbinding
      simp only [Bool.or_eq_true, decide_eq_true_iff]
      by_cases hfew : s.stack.length < s.frame.stackBase + binding.inputs
      · exact .inl hfew
      · have henough := Nat.le_of_not_lt hfew
        exact .inr ((Native.fits_iff _).mpr (hnext _ (.enterNative hindex hbinding henough)))
    · rfl

theorem fitsBy_missing_iff {index : UInt32} (hindex : m.function? index = none)
    (defined : Nat → UInt32 → Machine → Bool) :
    fitsBy m defined index s = true ↔ Unrefused m ⟨.calling index, s, callers⟩ := by
  rw [unrefused_iff, fitsBy, hindex]
  refine ⟨fun _ => ⟨fun h => ?_, fun next hstep => ?_⟩, fun _ => rfl⟩
  · cases h with
    | depth hindex' _ => cases hindex.symm.trans hindex'
    | locals hindex' _ _ _ => cases hindex.symm.trans hindex'
  · cases hstep with
    | enterBody hindex' _ _ _ => cases hindex.symm.trans hindex'
    | enterNative hindex' _ _ => cases hindex.symm.trans hindex'
    | returned => exact unrefused_over _ _

/-- What a call of a defined function needs, when there is room for one more activation. -/
theorem unrefused_defined_iff {index typeIndex : UInt32} {position : Nat}
    (hindex : m.function? index = some (.defined position typeIndex))
    (hdepth : s.depth < maxCallDepth) :
    Unrefused m ⟨.calling index, s, callers⟩ ↔
      ∀ code type, m.codes.get? position = some code → m.types.get? typeIndex.toNat = some type →
        (∀ s', openFrame code type s ≠ .error .localsExhausted s') ∧
        ∀ frame opened body, openFrame code type s = .ok frame opened → m.body code = .ok body →
          Unrefused m ⟨.body body, entered position frame opened, s.frame :: callers⟩ := by
  rw [unrefused_iff]
  constructor
  · rintro ⟨hnow, hnext⟩ code type hcode htype
    refine ⟨fun s' hopen => hnow (.locals hindex hcode htype hopen), ?_⟩
    intro frame opened body hopen hbody
    exact hnext _ (.enterBody hindex hdepth ⟨hcode, htype, hopen⟩ hbody)
  · intro h
    refine ⟨fun hrefused => ?_, fun next hstep => ?_⟩
    · cases hrefused with
      | depth _ hdeep => omega
      | locals hindex' hcode htype hopen =>
        cases hindex.symm.trans hindex'
        exact (h _ _ hcode htype).1 _ hopen
    · cases hstep with
      | enterNative hindex' _ _ => cases hindex.symm.trans hindex'
      | returned => exact unrefused_over _ _
      | enterBody hindex' _ hopen hbody =>
        cases hindex.symm.trans hindex'
        exact (h _ _ hopen.code_eq hopen.type_eq).2 _ _ _ hopen.open_eq hbody

theorem definedFits_iff {index typeIndex : UInt32} {position : Nat}
    {calling : UInt32 → Machine → Bool}
    (hindex : m.function? index = some (.defined position typeIndex))
    (hdepth : s.depth < maxCallDepth)
    (hcalling : ∀ {s' callers} index, s'.depth = s.depth + 1 →
      (calling index s' = true ↔ Unrefused m ⟨.calling index, s', callers⟩)) :
    definedFits m calling position typeIndex s = true ↔
      Unrefused m ⟨.calling index, s, callers⟩ := by
  rw [unrefused_defined_iff hindex hdepth, definedFits]
  cases hcode : m.codes.get? position with
  | none => exact ⟨(fun _ _ _ h => by cases h), fun _ => rfl⟩
  | some code =>
    cases htype : m.types.get? typeIndex.toNat with
    | none => exact ⟨(fun _ _ _ _ h => by cases h), fun _ => rfl⟩
    | some type =>
      dsimp only
      cases hopen : openFrame code type s with
      | error fault s' =>
        constructor
        · intro h _ _ hcode' htype'
          cases hcode'
          cases htype'
          refine ⟨fun s'' hopen' => ?_, fun frame opened body hopen' => ?_⟩
          · cases hopen.symm.trans hopen'
            exact of_decide_eq_true h rfl
          · cases hopen.symm.trans hopen'
        · intro h
          obtain ⟨hroom', -⟩ := h code type rfl rfl
          refine decide_eq_true fun hfault => ?_
          rw [hfault] at hopen
          exact hroom' s' hopen
      | ok frame opened =>
        have hopened : Opened m position typeIndex s code type frame opened :=
          ⟨hcode, htype, hopen⟩
        have hdeeper : (entered position frame opened).depth = s.depth + 1 :=
          congrArg (· + 1) hopened.depth_eq
        cases hbody : m.body code with
        | error fault =>
          refine ⟨fun _ _ _ hcode' htype' => ?_, fun _ => rfl⟩
          cases hcode'
          cases htype'
          refine ⟨fun s'' hopen' => ?_, fun frame' opened' body' _ hbody' => ?_⟩
          · cases hopen.symm.trans hopen'
          · cases hbody.symm.trans hbody'
        | ok body =>
          have hfits : bodyFits m calling body (entered position frame opened) = true ↔
              Unrefused m ⟨.body body, entered position frame opened, s.frame :: callers⟩ :=
            bodyFits_iff hcalling body hdeeper
          constructor
          · intro h _ _ hcode' htype'
            cases hcode'
            cases htype'
            refine ⟨fun s'' hopen' => ?_, fun frame' opened' body' hopen' hbody' => ?_⟩
            · cases hopen.symm.trans hopen'
            · cases hopen.symm.trans hopen'
              cases hbody.symm.trans hbody'
              exact hfits.mp h
          · intro h
            exact hfits.mpr ((h code type rfl rfl).2 frame opened body hopen hbody)

/-- A call finds room exactly if nothing is refused on the way. -/
theorem fitsWithin_iff (room : Nat) (index : UInt32) (hroom : s.depth + room = maxCallDepth) :
    fitsWithin m room index s = true ↔ Unrefused m ⟨.calling index, s, callers⟩ := by
  induction room generalizing s index callers with
  | zero =>
    cases hindex : m.function? index with
    | none => exact fitsBy_missing_iff hindex _
    | some function =>
      cases function with
      | imported position typeIndex => exact fitsBy_native_iff hindex _
      | defined position typeIndex =>
        rw [fitsWithin, fitsBy, hindex]
        exact ⟨(fun h => by cases h), fun h => absurd (.depth hindex (by omega)) h.now⟩
  | succ room ih =>
    cases hindex : m.function? index with
    | none => exact fitsBy_missing_iff hindex _
    | some function =>
      cases function with
      | imported position typeIndex => exact fitsBy_native_iff hindex _
      | defined position typeIndex =>
        rw [fitsWithin, fitsBy, hindex]
        refine definedFits_iff hindex (by omega) fun index hdeeper => ?_
        exact ih index (by omega)

/-- Whether anything is refused in a call from the host is decided by running it. -/
theorem unrefused_start_iff (hs : s.Idle) (index : UInt32) :
    Unrefused m (Moment.start index s) ↔ fitsWithin m maxCallDepth index s = true :=
  (fitsWithin_iff maxCallDepth index (by rw [hs.depth]; exact Nat.zero_add _)).symm

end BoundedWasm
