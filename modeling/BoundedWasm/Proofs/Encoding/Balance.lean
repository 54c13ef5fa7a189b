import BoundedWasm.Proofs.Decode.Body
import BoundedWasm.Proofs.Encoding.Recognition

/-!
# BoundedWasm.Proofs.Encoding.Balance — which bytes are a body, by counting

A body ends where for the first time more blocks have been closed than opened.  Counting
(`FallsBelow`, `StaysWithin`) says the same as the recursion of the decoder, which keeps the blocks
that are open (`Closes`, `closes_iff`), and what closes has the shape of the grammar once every
block is given its length (`Closes.measured`).  So the decoder accepts the bytes of the bodies and
no others, and puts into the table what they encode (`expression_exact`).
-/

namespace BoundedWasm

open BoundedWasm.Action Limits

/-! ### Counting blocks -/

/-- How many more blocks are opened than closed. -/
def level (is : List Instruction) : Int :=
  (is.countP fun i => i.opcode.opensBlock : Nat) - (is.countP fun i => i.opcode = .endBlock : Nat)

/-- What one instruction adds to the level. -/
def Instruction.rise (i : Instruction) : Int :=
  (if i.opcode.opensBlock then 1 else 0) - (if i.opcode = .endBlock then 1 else 0)

/-- It is with the last of the instructions that the level is for the first time below `floor`. -/
structure FallsBelow (floor : Int) (is : List Instruction) : Prop where
  below : level is < floor
  first : ∀ count < is.length, floor ≤ level (is.take count)

/-- The level is never above `ceiling`. -/
def StaysWithin (ceiling : Int) (is : List Instruction) : Prop :=
  ∀ count, level (is.take count) ≤ ceiling

/-- Every block says how many instructions lie between its opening and the `end` that matches it:
the one with which more blocks are closed than opened behind the opening. -/
def Measured (is : List Instruction) : Prop :=
  ∀ before i rest, is = before ++ i :: rest → i.opcode.opensBlock = true →
    ∃ inner last after, rest = inner ++ last :: after ∧ FallsBelow 0 (inner ++ [last]) ∧
      i.second = .u32 (UInt32.ofNat inner.length)

variable {i : Instruction} {is : List Instruction} {floor ceiling : Int}

namespace Instruction

theorem opens_of_end (h : i.opcode = .endBlock) : i.opcode.opensBlock = false := by
  rw [h]
  rfl

theorem rise_of_opens (h : i.opcode.opensBlock = true) : i.rise = 1 := by
  have hend : i.opcode ≠ .endBlock := fun hend => by simp [opens_of_end hend] at h
  simp [rise, h, hend]

theorem rise_of_end (h : i.opcode = .endBlock) : i.rise = -1 := by
  rw [rise, opens_of_end h]
  simp [h]

theorem rise_of_plain (hopens : i.opcode.opensBlock = false) (hend : i.opcode ≠ .endBlock) :
    i.rise = 0 := by
  simp [rise, hopens, hend]

/-- An instruction opens a block, ends one, or does neither. -/
theorem opens_or_ends_or_plain (i : Instruction) : i.opcode.opensBlock = true ∨
    i.opcode = .endBlock ∨ (i.opcode.opensBlock = false ∧ i.opcode ≠ .endBlock) := by
  cases hopens : i.opcode.opensBlock
  · by_cases hend : i.opcode = .endBlock
    · exact .inr (.inl hend)
    · exact .inr (.inr ⟨rfl, hend⟩)
  · exact .inl rfl

end Instruction

@[simp] theorem level_nil : level [] = 0 := rfl

@[simp] theorem level_cons (i : Instruction) (is : List Instruction) :
    level (i :: is) = i.rise + level is := by
  simp only [level, Instruction.rise, List.countP_cons, decide_eq_true_iff]
  split <;> split <;> omega

theorem fallsBelow_nil : FallsBelow floor [] ↔ 0 < floor :=
  ⟨fun h => h.below, fun h => ⟨h, fun _ hlt => absurd hlt (Nat.not_lt_zero _)⟩⟩

theorem fallsBelow_cons :
    FallsBelow floor (i :: is) ↔ floor ≤ 0 ∧ FallsBelow (floor - i.rise) is := by
  constructor
  · rintro ⟨hbelow, hfirst⟩
    rw [level_cons] at hbelow
    refine ⟨hfirst 0 (Nat.succ_pos _), by omega, fun count hlt => ?_⟩
    have hnext := hfirst (count + 1) (Nat.succ_lt_succ hlt)
    rw [List.take_succ_cons, level_cons] at hnext
    omega
  · rintro ⟨hfloor, hbelow, hfirst⟩
    refine ⟨by rw [level_cons]; omega, fun count hlt => ?_⟩
    cases count with
    | zero => exact hfloor
    | succ count =>
      have hnext := hfirst count (Nat.lt_of_succ_lt_succ hlt)
      rw [List.take_succ_cons, level_cons]
      omega

theorem staysWithin_cons :
    StaysWithin ceiling (i :: is) ↔ 0 ≤ ceiling ∧ StaysWithin (ceiling - i.rise) is := by
  constructor
  · intro h
    refine ⟨h 0, fun count => ?_⟩
    have hnext := h (count + 1)
    rw [List.take_succ_cons, level_cons] at hnext
    omega
  · rintro ⟨hceiling, h⟩ count
    cases count with
    | zero => exact hceiling
    | succ count =>
      have hnext := h count
      rw [List.take_succ_cons, level_cons]
      omega

theorem StaysWithin.nonneg (h : StaysWithin ceiling is) : 0 ≤ ceiling := h 0

/-! ### Closing the open blocks -/

/-- Instructions that close `opened` open blocks and then the body, and end there. -/
inductive Closes : (opened : Nat) → List Instruction → Prop
  | last {i : Instruction} (hend : i.opcode = .endBlock) : Closes 0 [i]
  | ends {opened : Nat} {i : Instruction} {rest : List Instruction} (hend : i.opcode = .endBlock)
    (h : Closes opened rest) : Closes (opened + 1) (i :: rest)
  | opens {opened : Nat} {i : Instruction} {rest : List Instruction}
    (hopens : i.opcode.opensBlock = true) (hdepth : opened < maxBlockDepth)
    (h : Closes (opened + 1) rest) : Closes opened (i :: rest)
  | plain {opened : Nat} {i : Instruction} {rest : List Instruction}
    (hopens : i.opcode.opensBlock = false) (hend : i.opcode ≠ .endBlock) (h : Closes opened rest) :
    Closes opened (i :: rest)

theorem Closes.counts {opened : Nat} (h : Closes opened is) (hopened : opened ≤ maxBlockDepth) :
    FallsBelow (-opened) is ∧ StaysWithin (maxBlockDepth - opened) is := by
  induction h with
  | last hend =>
    rw [fallsBelow_cons, staysWithin_cons, Instruction.rise_of_end hend, fallsBelow_nil]
    refine ⟨⟨by omega, by omega⟩, by omega, fun count => ?_⟩
    rw [List.take_nil, level_nil]
    omega
  | @ends opened i rest hend _ ih =>
    obtain ⟨hfalls, hstays⟩ := ih (by omega)
    rw [fallsBelow_cons, staysWithin_cons, Instruction.rise_of_end hend]
    refine ⟨⟨by omega, ?_⟩, by omega, ?_⟩
    · rwa [show -((opened + 1 : Nat) : Int) - -1 = -opened by omega]
    · rwa [show (maxBlockDepth : Int) - (opened + 1 : Nat) - -1 = maxBlockDepth - opened by omega]
  | @opens opened i rest hopens hdepth _ ih =>
    obtain ⟨hfalls, hstays⟩ := ih hdepth
    rw [fallsBelow_cons, staysWithin_cons, Instruction.rise_of_opens hopens]
    refine ⟨⟨by omega, ?_⟩, by omega, ?_⟩
    · rwa [show -(opened : Int) - 1 = -((opened + 1 : Nat) : Int) by omega]
    · rwa [show (maxBlockDepth : Int) - opened - 1 = maxBlockDepth - (opened + 1 : Nat) by omega]
  | plain hopens hend _ ih =>
    obtain ⟨hfalls, hstays⟩ := ih hopened
    rw [fallsBelow_cons, staysWithin_cons, Instruction.rise_of_plain hopens hend, Int.sub_zero,
      Int.sub_zero]
    exact ⟨⟨by omega, hfalls⟩, by omega, hstays⟩

theorem closes_of_counts {opened : Nat} (hfalls : FallsBelow (-opened) is)
    (hstays : StaysWithin (maxBlockDepth - opened) is) : Closes opened is := by
  induction is generalizing opened with
  | nil =>
    rw [fallsBelow_nil] at hfalls
    omega
  | cons i is ih =>
    rw [fallsBelow_cons] at hfalls
    rw [staysWithin_cons] at hstays
    obtain ⟨-, hfalls⟩ := hfalls
    obtain ⟨-, hstays⟩ := hstays
    rcases i.opens_or_ends_or_plain with hopens | hend | ⟨hopens, hend⟩
    · rw [Instruction.rise_of_opens hopens] at hfalls hstays
      have hdepth := hstays.nonneg
      refine .opens hopens (by omega) (ih ?_ ?_)
      · rwa [show -((opened + 1 : Nat) : Int) = -opened - 1 by omega]
      · rwa [show (maxBlockDepth : Int) - (opened + 1 : Nat) = maxBlockDepth - opened - 1 by omega]
    · rw [Instruction.rise_of_end hend] at hfalls hstays
      cases opened with
      | zero =>
        -- nothing is left to close, so that nothing may follow
        cases is with
        | nil => exact .last hend
        | cons next is =>
          have hfloor := (fallsBelow_cons.mp hfalls).1
          omega
      | succ opened =>
        refine .ends hend (ih ?_ ?_)
        · rwa [show -(opened : Int) = -((opened + 1 : Nat) : Int) - -1 by omega]
        · rwa [show (maxBlockDepth : Int) - opened = maxBlockDepth - (opened + 1 : Nat) - -1 by
            omega]
    · rw [Instruction.rise_of_plain hopens hend, Int.sub_zero] at hfalls hstays
      exact .plain hopens hend (ih hfalls hstays)

/-- Counting decides where a body ends. -/
theorem closes_iff : Closes 0 is ↔ FallsBelow 0 is ∧ StaysWithin maxBlockDepth is := by
  constructor
  · intro h
    simpa using h.counts (Nat.zero_le _)
  · rintro ⟨hfalls, hstays⟩
    exact closes_of_counts (by simpa using hfalls) (by simpa using hstays)

/-! ### The shape of the grammar -/

/-- Balanced instructions in front change nothing of what is to be closed. -/
theorem Balanced.closes {depth : Nat} (h : Balanced depth is) {opened : Nat}
    {rest : List Instruction} (hrest : Closes opened rest)
    (hdepth : opened + depth ≤ maxBlockDepth) : Closes opened (is ++ rest) := by
  induction h generalizing opened rest with
  | nil => exact hrest
  | plain hopens hend _ ih => exact .plain hopens hend (ih hrest hdepth)
  | @block depth i last inner more hopens hlast _ _ _ ihinner ihmore =>
    rw [List.cons_append, List.append_assoc, List.cons_append]
    exact .opens hopens (by omega) (ihinner (.ends hlast (ihmore hrest hdepth)) (by omega))

theorem IsBody.closes (h : IsBody is) : Closes 0 is := by
  obtain ⟨hinner, hlast⟩ := h
  exact hinner.closes (.last hlast) (by omega)

theorem Balanced.fallsBelow {depth : Nat} (h : Balanced depth is) (hdepth : depth ≤ maxBlockDepth)
    {last : Instruction} (hlast : last.opcode = .endBlock) : FallsBelow 0 (is ++ [last]) :=
  (closes_iff.mp (h.closes (.last hlast) (by omega))).1

theorem measured_nil : Measured [] := by
  intro before i rest h
  simp at h

theorem Measured.cons (h : Measured is) (hopens : i.opcode.opensBlock = false) :
    Measured (i :: is) := by
  intro before j rest heq hj
  cases before with
  | nil =>
    obtain ⟨rfl, -⟩ := List.cons_eq_cons.mp heq
    rw [hopens] at hj
    cases hj
  | cons first before =>
    obtain ⟨-, htail⟩ := List.cons_eq_cons.mp heq
    exact h before j rest htail hj

theorem Measured.append {more : List Instruction} (h : Measured is) (hmore : Measured more) :
    Measured (is ++ more) := by
  intro before j rest heq hj
  rcases List.append_eq_append_iff.mp heq with ⟨between, hbefore, hrest⟩ | ⟨between, his, hrest⟩
  · exact hmore between j rest hrest hj
  · cases between with
    | nil => exact hmore [] j rest hrest.symm hj
    | cons first between =>
      obtain ⟨rfl, rfl⟩ := List.cons_eq_cons.mp hrest
      obtain ⟨inner, last, after, rfl, hmatch⟩ := h before j between his hj
      exact ⟨inner, last, after ++ more, by simp, hmatch⟩

theorem Balanced.measured {depth : Nat} (h : Balanced depth is) (hdepth : depth ≤ maxBlockDepth) :
    Measured is := by
  induction h with
  | nil => exact measured_nil
  | plain hopens _ _ ih => exact (ih hdepth).cons hopens
  | @block depth i last inner more hopens hlast hlength hinner _ ihinner ihmore =>
    intro before j rest heq hj
    cases before with
    | nil =>
      obtain ⟨rfl, rfl⟩ := List.cons_eq_cons.mp heq
      exact ⟨inner, last, more, rfl, hinner.fallsBelow (by omega) hlast, hlength⟩
    | cons first before =>
      obtain ⟨-, htail⟩ := List.cons_eq_cons.mp heq
      have hbehind := (ihmore hdepth).cons (Instruction.opens_of_end hlast)
      exact (ihinner (by omega)).append hbehind before j rest htail hj

theorem IsBody.measured (h : IsBody is) : Measured is := by
  obtain ⟨hinner, hlast⟩ := h
  have hclosing := measured_nil.cons (Instruction.opens_of_end hlast)
  exact (hinner.measured (Nat.le_refl _)).append hclosing

/-- Instructions of the grammar's shape that close `opened` open blocks and then the body: balanced
ones stand before each `end`. -/
inductive Unwinds : (opened : Nat) → List Instruction → Prop
  | body {inner : List Instruction} {last : Instruction} (hinner : Balanced maxBlockDepth inner)
    (hlast : last.opcode = .endBlock) : Unwinds 0 (inner ++ [last])
  | block {opened : Nat} {inner rest : List Instruction} {last : Instruction}
    (hinner : Balanced (maxBlockDepth - (opened + 1)) inner) (hlast : last.opcode = .endBlock)
    (h : Unwinds opened rest) : Unwinds (opened + 1) (inner ++ last :: rest)

/-- What keeps instructions balanced may stand in front of the first `end`. -/
theorem Unwinds.prepend {opened : Nat} (h : Unwinds opened is) (front : List Instruction)
    (hfront : ∀ inner, Balanced (maxBlockDepth - opened) inner →
      Balanced (maxBlockDepth - opened) (front ++ inner)) : Unwinds opened (front ++ is) := by
  cases h with
  | body hinner hlast =>
    rw [← List.append_assoc]
    exact .body (hfront _ hinner) hlast
  | block hinner hlast h =>
    rw [← List.append_assoc]
    exact .block (hfront _ hinner) hlast h

theorem Unwinds.isBody (h : Unwinds 0 is) : IsBody is := by
  cases h with
  | body hinner hlast => exact .mk hinner hlast

/-- A block is encoded without its length. -/
theorem Instruction.EncodedBy.withLength {bytes : List UInt8} (h : i.EncodedBy bytes)
    (hopens : i.opcode.opensBlock = true) (length : UInt32) :
    { i with second := .u32 length }.EncodedBy bytes := by
  obtain ⟨hcode, himmediates⟩ := h
  refine .mk hcode ?_
  rw [Opcode.opensBlock_iff] at hopens
  rw [hopens] at himmediates ⊢
  generalize i.first = first at *
  generalize i.second = second at *
  cases himmediates with
  | block _ htype => exact .block length htype

/-- What closes `opened` blocks and the body has, up to the lengths of blocks, the shape of the
grammar: every block is given the number of instructions before the `end` that closes it. -/
theorem Closes.unwinds {opened : Nat} (h : Closes opened is) {bytes : List UInt8}
    (hbytes : EachBy Instruction.EncodedBy is bytes) : ∃ measured : List Instruction,
      Unwinds opened measured ∧ EachBy Instruction.EncodedBy measured bytes ∧
        measured.length = is.length := by
  induction h generalizing bytes with
  | last hend => exact ⟨_, .body .nil hend, hbytes, rfl⟩
  | ends hend _ ih =>
    cases hbytes with
    | cons hi hrest =>
    obtain ⟨measured, hmeasured, hencoded, hlength⟩ := ih hrest
    exact ⟨_, .block .nil hend hmeasured, .cons hi hencoded, by simp [hlength]⟩
  | plain hopens hend _ ih =>
    cases hbytes with
    | cons hi hrest =>
    obtain ⟨measured, hmeasured, hencoded, hlength⟩ := ih hrest
    exact ⟨_, hmeasured.prepend [_] fun _ => .plain hopens hend, .cons hi hencoded,
      by simp [hlength]⟩
  | @opens opened i rest hopens hdepth _ ih =>
    cases hbytes with
    | cons hi hrest =>
    obtain ⟨measured, hmeasured, hencoded, hlength⟩ := ih hrest
    cases hmeasured with
    | @block _ inner behind last hinner hlast hbehind =>
    -- the block ends with the first `end` behind balanced instructions
    have hblock := hbehind.prepend
      ({ i with second := .u32 (UInt32.ofNat inner.length) } :: (inner ++ [last]))
      fun more hmore => by
        rw [show maxBlockDepth - opened = maxBlockDepth - (opened + 1) + 1 by omega] at hmore ⊢
        rw [List.cons_append, List.append_assoc, List.singleton_append]
        exact .block hopens hlast rfl hinner hmore
    rw [List.cons_append, List.append_assoc, List.singleton_append] at hblock
    exact ⟨_, hblock, .cons (hi.withLength hopens _) hencoded, by simp [hlength]⟩

/-- The bytes of what counts as a body are those of a body of the grammar. -/
theorem Closes.measured (h : Closes 0 is) {bytes : List UInt8}
    (hbytes : EachBy Instruction.EncodedBy is bytes) : ∃ body : List Instruction,
      IsBody body ∧ EachBy Instruction.EncodedBy body bytes ∧ body.length = is.length := by
  obtain ⟨body, hbody, hencoded, hlength⟩ := h.unwinds hbytes
  exact ⟨body, hbody.isBody, hencoded, hlength⟩

/-! ### The decoder -/

namespace Body

variable {cap : Nat}

/-- The body reads `bytes` and whatever is behind them stays, and the table is then `pool'`. -/
def Takes {α : Type} (action : Action (Body cap) α) (pool : FixedVec Instruction cap)
    (bytes : List UInt8) (a : α) (pool' : FixedVec Instruction cap) : Prop :=
  ∀ position rest, action ⟨⟨position, bytes ++ rest⟩, pool⟩
    = .ok a ⟨⟨position + bytes.length, rest⟩, pool'⟩

/-- What follows on an instruction does not depend on the bytes: the decoder goes on, with the
blocks that are then open and the table as it then is, or it ends. -/
theorem follow_cases (next : Instruction) (index room : Nat) (opened : List Nat)
    (pool : FixedVec Instruction cap) :
    (∃ opened' pool', (∀ r, follow next index room opened ⟨r, pool⟩
        = instructions room opened' ⟨r, pool'⟩) ∧
      ∀ rest, Closes opened'.length rest → Closes opened.length (next :: rest)) ∨
    (Closes opened.length [next] ∧ ∀ r, follow next index room opened ⟨r, pool⟩
      = .ok () ⟨r, pool⟩) ∨
    ∃ fault, ∀ r, follow next index room opened ⟨r, pool⟩ = .error fault ⟨r, pool⟩ := by
  rcases next.opens_or_ends_or_plain with hopens | hend | ⟨hopens, hend⟩
  · by_cases hdepth : opened.length < maxBlockDepth
    · refine .inl ⟨index :: opened, pool, fun r => ?_, fun rest h => .opens hopens hdepth h⟩
      rw [follow.eq_def, if_pos hopens, if_pos hdepth]
    · refine .inr (.inr ⟨.blocksTooDeep, fun r => ?_⟩)
      rw [follow.eq_def, if_pos hopens, if_neg hdepth]
      rfl
  · have hopens := Instruction.opens_of_end hend
    cases opened with
    | nil =>
      refine .inr (.inl ⟨.last hend, fun r => ?_⟩)
      rw [follow, if_neg (by simp [hopens]), if_pos hend]
      rfl
    | cons opening outer =>
      obtain ⟨pool', hclose⟩ : ∃ pool', ∀ r, close opening index ⟨r, pool⟩ = .ok () ⟨r, pool'⟩ := by
        cases hget : pool.get? opening with
        | none =>
          refine ⟨pool, fun r => ?_⟩
          show EStateM.Result.ok () _ = _
          simp only [hget]
        | some block =>
          rw [FixedVec.get?_eq] at hget
          exact ⟨_, fun r => close_run hget⟩
      refine .inl ⟨outer, pool', fun r => ?_, fun rest h => .ends hend h⟩
      rw [follow, if_neg (by simp [hopens]), if_pos hend]
      rw [bind_run, hclose]
  · refine .inl ⟨opened, pool, fun r => ?_, fun rest h => .plain hopens hend h⟩
    rw [follow.eq_def, if_neg (by simp [hopens]), if_neg hend]

/-- A run that succeeds has read instructions that close the open blocks and the body, and from
their bytes alone comes what it has done to the table. -/
theorem instructions_takes {room : Nat} {opened : List Nat} {r : Reader}
    {pool : FixedVec Instruction cap} {b' : Body cap}
    (hrun : instructions room opened ⟨r, pool⟩ = .ok () b') :
    ∃ (is : List Instruction) (bytes : List UInt8), r.StepsOver bytes b'.reader ∧
      EachBy Instruction.EncodedBy is bytes ∧ Closes opened.length is ∧ is.length ≤ room ∧
        Takes (instructions room opened) pool bytes () b'.pool := by
  induction room generalizing opened r pool with
  | zero =>
    rw [instructions, bind_run] at hrun
    split at hrun <;> cases hrun
  | succ room ih =>
    obtain ⟨next, r₁, hnext⟩ : ∃ next r₁, Parser.instruction r = .ok next r₁ := by
      cases hnext : Parser.instruction r with
      | ok next r₁ => exact ⟨next, r₁, rfl⟩
      | error fault r₁ =>
        rw [instructions, bind_run, reading, onPart, hnext] at hrun
        cases hrun
    obtain ⟨first, hfirst, hfresh, hover⟩ :=
      Parser.recognizes_instruction.reads (fun _ _ => Parser.reads_instruction) hnext
    have hstep := fun position rest => instructions_step hfirst position rest pool room opened
    rw [hover.eq.1, hstep, hfresh, ← hover.position_eq] at hrun
    simp only [hfresh] at hstep
    rcases follow_cases next pool.length room opened (pool.put next) with
      ⟨opened', pool', hgoes, hcloses⟩ | ⟨hcloses, hdone⟩ | ⟨fault, hfails⟩
    · rw [hgoes] at hrun
      obtain ⟨is, bytes, hover', hbytes, his, hlength, htakes⟩ := ih hrun
      refine ⟨next :: is, first ++ bytes, hover.trans hover', .cons hfirst hbytes, hcloses is his,
        Nat.succ_le_succ hlength, fun position rest => ?_⟩
      rw [List.append_assoc, hstep, hgoes, htakes, List.length_append, Nat.add_assoc]
    · rw [hdone] at hrun
      cases hrun
      refine ⟨[next], first ++ [], hover.trans (Reader.stepsOver_refl _), .cons hfirst .nil,
        hcloses, Nat.succ_le_succ (Nat.zero_le _), fun position rest => ?_⟩
      rw [List.append_nil, hstep, hdone]
    · rw [hfails] at hrun
      cases hrun

/-- Reading a body into `pool` from the bytes ahead of `r`: it succeeds exactly when these begin
with instructions that count as a body and fit in the table, puts them behind what was there with
the length of every block filled in, stops behind the last of them, heeds nothing that follows, and
leaves what was in the table alone also when it fails. -/
structure ReadsExactly (r : Reader) (pool : FixedVec Instruction cap) : Prop where
  accepts : ∀ start count, (∃ b', expression ⟨r, pool⟩ = .ok (start, count) b') ↔
    start = pool.length ∧ ∃ body bytes rest, r.rest = bytes ++ rest ∧
      EachBy Instruction.EncodedBy body bytes ∧ body.length = count ∧ FallsBelow 0 body ∧
        StaysWithin maxBlockDepth body ∧ start + count ≤ cap
  places : ∀ start count b', expression ⟨r, pool⟩ = .ok (start, count) b' → ∃ body bytes,
    EachBy Instruction.EncodedBy body bytes ∧ body.length = count ∧ FallsBelow 0 body ∧
      Measured body ∧ b'.pool.toList = pool.toList ++ body ∧ r.StepsOver bytes b'.reader ∧
        Takes expression pool bytes (start, count) b'.pool
  fails : ∀ fault b', expression ⟨r, pool⟩ = .error fault b' → pool.toList <+: b'.pool.toList

theorem expression_run (r : Reader) (pool : FixedVec Instruction cap) :
    expression ⟨r, pool⟩ = match instructions pool.free [] ⟨r, pool⟩ with
      | .ok _ b' => .ok (pool.length, b'.pool.length - pool.length) b'
      | .error fault b' => .error fault b' := by
  show (instructions pool.free [] >>= fun _ => _) _ = _
  rw [bind_run]
  cases instructions pool.free [] ⟨r, pool⟩ <;> rfl

/-- What a run that succeeds has read and written. -/
theorem expression_takes {r : Reader} {pool : FixedVec Instruction cap} {span : Nat × Nat}
    {b' : Body cap} (hrun : expression ⟨r, pool⟩ = .ok span b') : ∃ body bytes, IsBody body ∧
      EachBy Instruction.EncodedBy body bytes ∧ span = (pool.length, body.length) ∧
        pool.length + body.length ≤ cap ∧ b'.pool.toList = pool.toList ++ body ∧
          r.StepsOver bytes b'.reader ∧ Takes expression pool bytes span b'.pool := by
  have hinstructions := hrun
  rw [expression_run] at hinstructions
  split at hinstructions
  · rename_i b'' hok
    cases hinstructions
    obtain ⟨is, bytes, hover, hbytes, hcloses, hroom, htakes⟩ := instructions_takes hok
    obtain ⟨body, hbody, hencoded, hlength⟩ := Closes.measured hcloses hbytes
    have hfits : pool.length + body.length ≤ cap := by
      have := pool.length_le
      rw [FixedVec.free] at hroom
      omega
    obtain ⟨pool', hpool', hsame⟩ :=
      expression_body hbody hencoded r.position b'.reader.rest pool hfits
    rw [← hover.rest_eq, hrun] at hsame
    injection hsame with hspan hb'
    have hpool : b'.pool = pool' := by rw [hb']
    refine ⟨body, bytes, hbody, hencoded, hspan, hfits, by rw [hpool, hpool'], hover,
      fun position rest => ?_⟩
    rw [expression_run, htakes]
  · cases hinstructions

/-- The bodies that are read are exactly those that counting finds, and they are read into the table
as they were written. -/
theorem expression_exact (r : Reader) (pool : FixedVec Instruction cap) : ReadsExactly r pool where
  accepts start count := by
    constructor
    · rintro ⟨b', hrun⟩
      obtain ⟨body, bytes, hbody, hencoded, hspan, hfits, -, hover, -⟩ := expression_takes hrun
      cases hspan
      obtain ⟨hfalls, hstays⟩ := closes_iff.mp hbody.closes
      exact ⟨rfl, body, bytes, _, hover.rest_eq, hencoded, rfl, hfalls, hstays, hfits⟩
    · rintro ⟨rfl, is, bytes, rest, hrest, hbytes, rfl, hfalls, hstays, hfits⟩
      obtain ⟨body, hbody, hencoded, hlength⟩ := (closes_iff.mpr ⟨hfalls, hstays⟩).measured hbytes
      obtain ⟨pool', -, hrun⟩ :=
        expression_body hbody hencoded r.position rest pool (by rwa [hlength])
      rw [← hrest, hlength] at hrun
      exact ⟨_, hrun⟩
  places start count b' hrun := by
    obtain ⟨body, bytes, hbody, hencoded, hspan, -, hpool, hover, htakes⟩ := expression_takes hrun
    cases hspan
    exact ⟨body, bytes, hencoded, rfl, (closes_iff.mp hbody.closes).1, hbody.measured, hpool, hover,
      htakes⟩
  fails fault b' hrun := (expression_ends _).of_error hrun

end Body

end BoundedWasm
