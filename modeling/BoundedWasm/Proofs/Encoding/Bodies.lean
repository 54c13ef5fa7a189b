import BoundedWasm.Proofs.Encoding.Entries

/-!
# BoundedWasm.Proofs.Encoding.Bodies — bodies are read as they were written

The parser of instructions reads what the grammar writes, except for the length of a block, which is
not in the bytes.  A run over balanced instructions puts them into the table one behind the other
and, at the end of each block, fills its length in (`instructions_balanced`), so that afterwards the
table holds the body as it was (`expression_body`).
-/

namespace BoundedWasm

open Limits

/-! ### Operation codes -/

namespace Opcode

/-- A code stands for one operation, and no code is the byte that announces an extended one. -/
theorem table_codes :
    ∀ entry ∈ table, ofCode? entry.1 = some entry.2 ∧ entry.1 ≠ extendedPrefix.toNat := by
  decide +kernel

theorem mem_all (opcode : Opcode) : opcode ∈ all := by
  have h : all.contains opcode = true := by
    cases opcode <;> (repeat' (rename_i x; cases x)) <;> rfl
  exact List.contains_iff_mem.mp h

theorem exists_entry (opcode : Opcode) : (opcode.code, opcode) ∈ table := by
  obtain ⟨entry, hentry, hop⟩ := List.mem_map.mp opcode.mem_all
  unfold code
  cases hfind : table.find? fun entry => entry.2 == opcode with
  | none =>
    have hne := List.find?_eq_none.mp hfind entry hentry
    rw [hop, beq_self_eq_true] at hne
    exact absurd rfl hne
  | some found =>
    have hfound : found.2 = opcode := by simpa using List.find?_some hfind
    rw [← hfound]
    exact List.mem_of_find?_eq_some hfind

theorem ofCode?_code (opcode : Opcode) : ofCode? opcode.code = some opcode :=
  (table_codes _ opcode.exists_entry).1

theorem code_ne_extendedPrefix (opcode : Opcode) : opcode.code ≠ extendedPrefix.toNat :=
  (table_codes _ opcode.exists_entry).2

end Opcode

namespace Parser

theorem reads_opcode {opcode : Opcode} {bytes : List UInt8} (h : opcode.EncodedBy bytes) :
    Reads Parser.opcode bytes opcode := by
  cases h with
  | byte hlt =>
    have hcode : (UInt8.ofNat opcode.code).toNat = opcode.code := UInt8.toNat_ofNat_of_lt' hlt
    have hne : UInt8.ofNat opcode.code ≠ Opcode.extendedPrefix := fun h =>
      opcode.code_ne_extendedPrefix (hcode.symm.trans (congrArg UInt8.toNat h))
    have hfrom : Reads (opcodeFrom? (UInt8.ofNat opcode.code)) [] (some opcode) := by
      rw [opcodeFrom?, if_neg hne, Opcode.ofByte?, hcode, Opcode.ofCode?_code]
      exact reads_pure _
    exact (reads_byte _).then (hfrom.then (reads_pure _))
  | @extended k number hcode hnumber =>
    obtain ⟨n, rfl, hreads⟩ := exists_uleb32 hnumber
    have hfrom : Reads (opcodeFrom? 0xFC) number (some opcode) := by
      have hmap := hreads.map fun n => Opcode.ofExtended? n.toNat
      rwa [Opcode.ofExtended?, Opcode.extendedBase, ← hcode, Opcode.ofCode?_code] at hmap
    exact (reads_byte 0xFC).bind (hfrom.then (reads_pure _))

/-! ### Immediates -/

end Parser

/-- The first byte of a number that is not negative is none of those that stand for other block
types. -/
theorem Leb128.Signed.head {bits : Nat} {z : Int} {bytes : List UInt8}
    (h : Leb128.Signed bits z bytes) (hz : 0 ≤ z) :
    ∃ b tail, bytes = b :: tail ∧ (b.toNat < 64 ∨ 128 ≤ b.toNat) := by
  cases h with
  | nonneg hlast _ => exact ⟨_, _, rfl, .inl hlast⟩
  | neg _ hlast _ => omega
  | more hmore _ _ => exact ⟨_, _, rfl, .inr hmore⟩

theorem ValueType.ofByte?_eq_none {b : UInt8} (h : b.toNat < 64 ∨ 128 ≤ b.toNat) :
    ValueType.ofByte? b = none := by
  refine List.find?_eq_none.mpr fun type _ heq => ?_
  have hb : type.toByte = b := eq_of_beq heq
  have hrange : 64 ≤ type.toByte.toNat ∧ type.toByte.toNat < 128 := by cases type <;> decide
  rw [hb] at hrange
  omega

/-- After a look at the next byte. -/
theorem Reads.peek {α : Type} {next : Reader → Parser α} {b : UInt8} {tail : List UInt8} {a : α}
    (h : ∀ r : Reader, r.peek? = some b → Reads (next r) (b :: tail) a) :
    Reads (get >>= next) (b :: tail) a :=
  fun position rest => h ⟨position, b :: tail ++ rest⟩ rfl position rest

namespace Parser

theorem reads_blockType {type : BlockType} {bytes : List UInt8} (h : type.EncodedBy bytes) :
    Reads blockType bytes type := by
  cases h with
  | empty => exact fun _ _ => rfl
  | value type => cases type <;> exact fun _ _ => rfl
  | @typeIndex index number hnumber =>
    obtain ⟨b, tail, rfl, hb⟩ := hnumber.head (Int.natCast_nonneg _)
    have hempty : ¬ some b = some emptyBlock := by
      rintro ⟨⟩
      revert hb
      decide
    have hrange : (0 : Int) ≤ index.toNat ∧ (index.toNat : Int) < UInt32.size :=
      ⟨Int.natCast_nonneg _, Int.ofNat_lt.mpr index.toNat_lt⟩
    refine Reads.peek fun r hpeek => ?_
    simp only [hpeek, if_neg hempty, Option.bind_some, ValueType.ofByte?_eq_none hb]
    refine (reads_sleb33 hnumber).then ?_
    rw [if_pos hrange, Int.toNat_natCast, UInt32.ofNat_toNat]
    exact reads_pure _

theorem reads_labels {labels : List UInt32} {bytes : List UInt8} (h : EachBy IndexBy labels bytes) :
    Reads (Action.times (discard uleb32) labels.length) bytes () := by
  induction h with
  | nil => exact reads_pure ()
  | cons hlabel _ ih =>
    obtain ⟨hindex⟩ := hlabel
    exact ((reads_uleb32 hindex).map _).bind ih

end Parser

namespace Instruction

/-- An instruction as it is read: the length of a block is filled in when its end is reached. -/
def fresh (i : Instruction) : Instruction :=
  if i.opcode.opensBlock then { i with second := .u32 0 } else i

theorem opcode_fresh (i : Instruction) : i.fresh.opcode = i.opcode := by
  unfold fresh
  split <;> rfl

theorem fresh_of_plain {i : Instruction} (h : i.opcode.opensBlock = false) : i.fresh = i := by
  rw [fresh, if_neg (by rw [h]; decide)]

theorem fresh_of_opens {i : Instruction} (h : i.opcode.opensBlock = true) :
    i.fresh = { i with second := .u32 0 } := by
  rw [fresh, if_pos h]

end Instruction

/-- With its length a block is as it was written. -/
theorem Instruction.fresh_with {i : Instruction} (h : i.opcode.opensBlock = true)
    {second : Immediate} (hsecond : i.second = second) : { i.fresh with second } = i := by
  rw [Instruction.fresh_of_opens h, ← hsecond]

/-- Blocks are the operations with a block type. -/
theorem Opcode.opensBlock_iff (opcode : Opcode) :
    opcode.opensBlock = true ↔ opcode.immediates = .block := by
  cases opcode with
  | const type => cases type <;> decide
  | _ => simp [Opcode.opensBlock, Opcode.immediates]

namespace Parser

theorem reads_immediates {opcode : Opcode} {first second : Immediate} {bytes : List UInt8}
    (h : opcode.immediates.EncodedBy first second bytes) :
    Reads (immediates opcode) bytes
      (first, if opcode.immediates = .block then .u32 0 else second) := by
  unfold immediates
  generalize opcode.immediates = kind at h
  cases h with
  | none => exact reads_pure _
  | index hn => exact (reads_uleb32 hn).then (reads_pure _)
  | i32 hn => exact (reads_sleb32 hn).then (reads_pure _)
  | i64 hn => exact (reads_sleb64 hn).then (reads_pure _)
  | f32 bits => exact (reads_word32 bits).then (reads_pure _)
  | f64 bits => exact (reads_word64 bits).then (reads_pure _)
  | block length htype => exact (reads_blockType htype).then (reads_pure _)
  | memArg halign hoffset =>
    exact (reads_uleb32 halign).bind ((reads_uleb32 hoffset).then (reads_pure _))
  | callIndirect htype htable =>
    exact (reads_uleb32 htype).bind ((reads_uleb32 htable).then (reads_pure _))
  | @brTable count default labels vector last hcount hlabels hdefault =>
    obtain ⟨hnumber, heach⟩ := hlabels
    rw [hcount] at hnumber
    rw [List.append_assoc]
    have hreads := reads_labels heach
    rw [hcount] at hreads
    exact (reads_uleb32 hnumber).bind
      (hreads.bind ((reads_uleb32 hdefault).then (reads_pure _)))
  | reserved => exact (reads_byte 0x00).then (Reads.unless (by decide) (reads_pure _))

theorem reads_instruction {i : Instruction} {bytes : List UInt8} (h : i.EncodedBy bytes) :
    Reads instruction bytes i.fresh := by
  obtain ⟨hcode, himmediates⟩ := h
  have hfresh : i.fresh
      = ⟨i.opcode, i.first, if i.opcode.immediates = .block then .u32 0 else i.second⟩ := by
    simp only [Instruction.fresh, Opcode.opensBlock_iff]
    split <;> rfl
  rw [hfresh]
  exact (reads_opcode hcode).bind ((reads_immediates himmediates).then (reads_pure _))

end Parser

/-! ### Bodies -/

/-- What is written for two sequences is written for one and then for the other. -/
theorem EachBy.of_append {α : Type} {E : α → List UInt8 → Prop} {xs ys : List α}
    {bytes : List UInt8} (h : EachBy E (xs ++ ys) bytes) :
    ∃ first second, bytes = first ++ second ∧ EachBy E xs first ∧ EachBy E ys second := by
  induction xs generalizing bytes with
  | nil => exact ⟨[], bytes, rfl, .nil, h⟩
  | cons x xs ih =>
    cases h with
    | cons hx hxs =>
      obtain ⟨first, second, rfl, hfirst, hsecond⟩ := ih hxs
      exact ⟨_, second, (List.append_assoc _ _ _).symm, .cons hx hfirst, hsecond⟩

namespace Body

open BoundedWasm.Action

variable {cap : Nat}

theorem reading_run {α : Type} {p : Parser α} {bytes : List UInt8} {a : α} (h : Reads p bytes a)
    (position : Nat) (rest : List UInt8) (pool : FixedVec Instruction cap) :
    reading p ⟨⟨position, bytes ++ rest⟩, pool⟩
      = .ok a ⟨⟨position + bytes.length, rest⟩, pool⟩ := by
  rw [reading, onPart, h]

theorem close_run {opening ending : Nat} {i : Instruction} {r : Reader}
    {pool : FixedVec Instruction cap} (hi : pool.toList[opening]? = some i) :
    close opening ending ⟨r, pool⟩ = .ok () ⟨r, pool.set opening
      { i with second := .u32 (UInt32.ofNat (ending - opening - 1)) }⟩ := by
  rw [← FixedVec.get?_eq] at hi
  show EStateM.Result.ok () _ = _
  simp only [hi]

/-- What `instructions` does with an instruction that it has put into the table at `index`. -/
def follow (next : Instruction) (index room : Nat) (opened : List Nat) :
    Action (Body cap) Unit :=
  if next.opcode.opensBlock then
    if opened.length < maxBlockDepth then instructions room (index :: opened)
    else throw .blocksTooDeep
  else if next.opcode = .endBlock then
    match opened with
    | [] => return
    | opening :: outer => do
      close opening index
      instructions room outer
  else instructions room opened

section Steps

variable {i : Instruction} {bytes : List UInt8} (h : i.EncodedBy bytes) (position : Nat)
  (rest : List UInt8) (pool : FixedVec Instruction cap) (room : Nat) (opened : List Nat)

include h

theorem instructions_step :
    instructions (room + 1) opened ⟨⟨position, bytes ++ rest⟩, pool⟩
      = follow i.fresh pool.length room opened
          ⟨⟨position + bytes.length, rest⟩, pool.put i.fresh⟩ := by
  rw [instructions, bind_run, reading_run (Parser.reads_instruction h)]
  rfl

theorem instructions_plain (hopens : i.opcode.opensBlock = false) (hend : i.opcode ≠ .endBlock) :
    instructions (room + 1) opened ⟨⟨position, bytes ++ rest⟩, pool⟩
      = instructions room opened ⟨⟨position + bytes.length, rest⟩, pool.put i⟩ := by
  rw [instructions_step h, Instruction.fresh_of_plain hopens, follow.eq_def,
    if_neg (by simp [hopens]), if_neg hend]

theorem instructions_opens (hopens : i.opcode.opensBlock = true)
    (hdepth : opened.length < maxBlockDepth) :
    instructions (room + 1) opened ⟨⟨position, bytes ++ rest⟩, pool⟩
      = instructions room (pool.length :: opened)
          ⟨⟨position + bytes.length, rest⟩, pool.put i.fresh⟩ := by
  rw [instructions_step h, follow.eq_def, if_pos (by rw [Instruction.opcode_fresh, hopens]),
    if_pos hdepth]

theorem instructions_closes (hend : i.opcode = .endBlock) {opening : Nat} {outer : List Nat}
    {block : Instruction} (hroom : pool.length < cap)
    (hblock : pool.toList[opening]? = some block) :
    instructions (room + 1) (opening :: outer) ⟨⟨position, bytes ++ rest⟩, pool⟩
      = instructions room outer ⟨⟨position + bytes.length, rest⟩, (pool.put i).set opening
          { block with second := .u32 (UInt32.ofNat (pool.length - opening - 1)) }⟩ := by
  have hput : (pool.put i).toList[opening]? = some block := by
    obtain ⟨hlt, -⟩ := List.getElem?_eq_some_iff.mp hblock
    rw [FixedVec.toList_put_of_lt hroom, List.getElem?_append_left hlt, hblock]
  have hopens : i.opcode.opensBlock = false := by rw [hend]; rfl
  rw [instructions_step h, Instruction.fresh_of_plain hopens, follow, if_neg (by simp [hopens]),
    if_pos hend]
  rw [bind_run, close_run hput]

theorem instructions_last (hend : i.opcode = .endBlock) :
    instructions (room + 1) [] ⟨⟨position, bytes ++ rest⟩, pool⟩
      = .ok () ⟨⟨position + bytes.length, rest⟩, pool.put i⟩ := by
  have hopens : i.opcode.opensBlock = false := by rw [hend]; rfl
  rw [instructions_step h, Instruction.fresh_of_plain hopens, follow, if_neg (by simp [hopens]),
    if_pos hend]
  rfl

end Steps

/-- What the table holds when a block ends: its opening has the length it was written with. -/
theorem toList_closed {i : Instruction} (last : Instruction) {inner : List Instruction}
    (hopens : i.opcode.opensBlock = true) (hlength : i.second = .u32 (UInt32.ofNat inner.length))
    {pool opened : FixedVec Instruction cap} (hroom : opened.length < cap)
    (hopened : opened.toList = pool.toList ++ i.fresh :: inner) :
    ((opened.put last).set pool.length
      { i.fresh with second := .u32 (UInt32.ofNat (opened.length - pool.length - 1)) }).toList
        = pool.toList ++ i :: (inner ++ [last]) := by
  have hinner : opened.length - pool.length - 1 = inner.length := by
    rw [← FixedVec.length_toList, hopened, List.length_append, FixedVec.length_toList,
      List.length_cons]
    omega
  rw [hinner, Instruction.fresh_with hopens hlength, FixedVec.toList_set,
    FixedVec.toList_put_of_lt hroom, hopened]
  simp

/-- Balanced instructions are put behind what the table holds, the lengths of their blocks filled
in, and what is read next is read as if they had not been there. -/
theorem instructions_balanced {depth : Nat} {inner : List Instruction}
    (hinner : Balanced depth inner) {bytes : List UInt8}
    (hbytes : EachBy Instruction.EncodedBy inner bytes) (position : Nat) (rest : List UInt8)
    (pool : FixedVec Instruction cap) (room : Nat) (opened : List Nat)
    (hroom : pool.length + (inner.length + room) ≤ cap)
    (hdepth : opened.length + depth ≤ maxBlockDepth) :
    ∃ pool' : FixedVec Instruction cap, pool'.toList = pool.toList ++ inner ∧
      instructions (inner.length + room) opened ⟨⟨position, bytes ++ rest⟩, pool⟩
        = instructions room opened ⟨⟨position + bytes.length, rest⟩, pool'⟩ := by
  induction hinner generalizing bytes position rest pool room opened with
  | nil =>
    cases hbytes
    exact ⟨pool, (List.append_nil _).symm, by simp⟩
  | @plain depth i more hopens hend _ ih =>
    cases hbytes with
    | @cons _ _ first others hi hmore =>
    rw [List.length_cons] at hroom
    have hput := pool.toList_put_of_lt (show pool.length < cap by omega) i
    have hlength : (pool.put i).length = pool.length + 1 := by
      rw [FixedVec.length_put, if_pos (by omega)]
    obtain ⟨pool', hpool', hrun⟩ := ih hmore (position + first.length) rest (pool.put i) room opened
      (by omega) hdepth
    refine ⟨pool', by rw [hpool', hput, List.append_assoc, List.singleton_append], ?_⟩
    rw [List.length_cons, Nat.add_right_comm, List.append_assoc,
      instructions_plain hi _ _ _ _ _ hopens hend, hrun, List.length_append, Nat.add_assoc]
  | @block depth i last inner more hopens hlast hlength _ _ ihinner ihmore =>
    cases hbytes with
    | @cons _ _ first others hi hothers =>
    obtain ⟨inside, outside, rfl, hinside, houtside⟩ := hothers.of_append
    cases houtside with
    | @cons _ _ closing behind hclosing hbehind =>
    rw [List.length_cons, List.length_append, List.length_cons] at hroom
    -- the opening is put into the table without its length
    have hput := pool.toList_put_of_lt (show pool.length < cap by omega) i.fresh
    have hputLength : (pool.put i.fresh).length = pool.length + 1 := by
      rw [FixedVec.length_put, if_pos (by omega)]
    obtain ⟨pool₁, hpool₁, hrun₁⟩ := ihinner hinside (position + first.length)
      (closing ++ behind ++ rest) (pool.put i.fresh) (more.length + room + 1)
      (pool.length :: opened) (by omega) (by rw [List.length_cons]; omega)
    have hlength₁ : pool₁.length = pool.length + 1 + inner.length := by
      rw [← FixedVec.length_toList, hpool₁, List.length_append, FixedVec.length_toList, hputLength]
    have hopened : pool₁.toList = pool.toList ++ i.fresh :: inner := by
      rw [hpool₁, hput, List.append_assoc, List.singleton_append]
    have hblock : pool₁.toList[pool.length]? = some i.fresh := by
      rw [hopened]
      simp
    -- and gets it at the end of the block
    obtain ⟨pool₂, hpool₂, hrun₂⟩ := ihmore hbehind
      (position + first.length + inside.length + closing.length) rest
      ((pool₁.put last).set pool.length
        { i.fresh with second := .u32 (UInt32.ofNat (pool₁.length - pool.length - 1)) })
      room opened (by rw [FixedVec.length_set, FixedVec.length_put, if_pos (by omega)]; omega)
      hdepth
    have hclosed := toList_closed last hopens hlength (by omega) hopened
    refine ⟨pool₂, by rw [hpool₂, hclosed]; simp, ?_⟩
    calc instructions ((i :: (inner ++ last :: more)).length + room) opened
          ⟨⟨position, first ++ (inside ++ (closing ++ behind)) ++ rest⟩, pool⟩
        = instructions (inner.length + (more.length + room + 1) + 1) opened
            ⟨⟨position, first ++ (inside ++ (closing ++ behind ++ rest))⟩, pool⟩ := by
          simp only [List.length_cons, List.length_append, List.append_assoc]
          congr 1
          omega
      _ = instructions (more.length + room + 1) (pool.length :: opened)
            ⟨⟨position + first.length + inside.length, closing ++ (behind ++ rest)⟩, pool₁⟩ := by
          rw [instructions_opens hi _ _ _ _ _ hopens (by omega), hrun₁, List.append_assoc]
      _ = instructions room opened
            ⟨⟨position + first.length + inside.length + closing.length + behind.length, rest⟩,
              pool₂⟩ := by
          rw [instructions_closes hclosing _ _ _ _ hlast (by omega) hblock, hrun₂]
      _ = _ := by simp only [List.length_append, Nat.add_assoc]

/-- A body is put behind what the table holds, and the answer says where. -/
theorem expression_body {body : List Instruction} (hbody : IsBody body) {bytes : List UInt8}
    (hbytes : EachBy Instruction.EncodedBy body bytes) (position : Nat) (rest : List UInt8)
    (pool : FixedVec Instruction cap) (hroom : pool.length + body.length ≤ cap) :
    ∃ pool' : FixedVec Instruction cap, pool'.toList = pool.toList ++ body ∧
      expression ⟨⟨position, bytes ++ rest⟩, pool⟩
        = .ok (pool.length, body.length) ⟨⟨position + bytes.length, rest⟩, pool'⟩ := by
  obtain ⟨hinner, hlast⟩ := hbody
  rename_i inner last
  obtain ⟨inside, closing, rfl, hinside, hclosing⟩ := hbytes.of_append
  cases hclosing with
  | @cons _ _ closing _ hi hnil =>
  cases hnil
  rw [List.length_append, List.length_singleton] at hroom
  obtain ⟨free, hfree⟩ : ∃ free, pool.free = inner.length + (free + 1) :=
    ⟨pool.free - inner.length - 1, by rw [FixedVec.free]; omega⟩
  obtain ⟨pool', hpool', hrun⟩ := instructions_balanced hinner hinside position
    (closing ++ rest) pool (free + 1) [] (by rw [FixedVec.free] at hfree; omega) (by simp)
  have hlength : pool'.length = pool.length + inner.length := by
    rw [← FixedVec.length_toList, hpool', List.length_append, FixedVec.length_toList]
  have hput := pool'.toList_put_of_lt (show pool'.length < cap by omega) last
  refine ⟨pool'.put last, by rw [hput, hpool', List.append_assoc], ?_⟩
  have hall : instructions pool.free [] ⟨⟨position, inside ++ (closing ++ []) ++ rest⟩, pool⟩
      = .ok () ⟨⟨position + (inside ++ (closing ++ [])).length, rest⟩, pool'.put last⟩ := by
    rw [hfree, List.append_nil, List.append_assoc, hrun, instructions_last hi _ _ _ _ hlast,
      List.length_append, Nat.add_assoc]
  have hspan : (pool'.put last).length - pool.length = (inner ++ [last]).length := by
    rw [← FixedVec.length_toList, hput, List.length_append, FixedVec.length_toList, hlength,
      List.length_append]
    omega
  show (instructions pool.free [] >>= fun _ => _) _ = _
  rw [bind_run, hall, ← hspan]
  rfl

end Body

end BoundedWasm
