import BoundedWasm.Proofs.Decode.Entry
import BoundedWasm.Proofs.Encoding.Balance

/-!
# BoundedWasm.Proofs.Decode.Overflow — what in an entry may not fit

Most parsers `Fit`: whatever is wrong with the bytes, none of their faults is one of capacity.  The
exceptions are the types of functions, which may have too many parameters
(`functionType_overflows`), and the bodies of functions, which may have too many groups of locals or
too many locals, blocks nested too deeply, or more instructions than the table has places left
(`Code.Overflow`).
-/

namespace BoundedWasm

open BoundedWasm.Action Limits

namespace Parser

variable {α β : Type}

/-- No fault of `p` says that something does not fit. -/
def Fits (p : Parser α) : Prop :=
  ∀ r, p.Ends r (fun _ _ => True) (fun fault _ => fault.category ≠ .capacity)

/-! ### Rules -/

theorem fits_pure (a : α) : Fits (pure a) := fun _ => trivial

theorem fits_throw {fault : Fault} (h : fault.category ≠ .capacity) :
    Fits (throw fault : Parser α) := fun _ => h

theorem fits_ofExcept {answer : Except Fault α}
    (h : ∀ fault, answer = .error fault → fault.category ≠ .capacity) :
    Fits (Action.ofExcept answer) := by
  intro r
  rw [ends_ofExcept]
  exact ⟨fun _ _ => trivial, h⟩

theorem Fits.bind {p : Parser α} {next : α → Parser β} (hp : Fits p) (hnext : ∀ a, Fits (next a)) :
    Fits (p >>= next) := by
  intro r
  rw [ends_bind]
  exact (hp r).mono (fun a r' _ => hnext a r') (fun _ _ => id)

/-- What follows has to fit only after the answers that `p` gives. -/
theorem Fits.bind_yields {P : α → Prop} {p : Parser α} {next : α → Parser β} (hp : Fits p)
    (hP : Yields P p) (hnext : ∀ a, P a → Fits (next a)) : Fits (p >>= next) := by
  intro r
  rw [ends_bind]
  exact ((hp r).and (hP r)).mono (fun a r' ha => hnext a ha.2 r') (fun _ _ hfault => hfault.1)

theorem Fits.map {p : Parser α} (hp : Fits p) (f : α → β) : Fits (f <$> p) := by
  intro r
  rw [ends_map]
  exact hp r

theorem Fits.discard {p : Parser α} (hp : Fits p) : Fits (Functor.discard p) :=
  hp.bind fun _ => fits_pure _

theorem Fits.ite {c : Prop} [Decidable c] {p q : Parser α} (hp : Fits p) (hq : Fits q) :
    Fits (if c then p else q) := by
  split
  · exact hp
  · exact hq

/-- Something is read, and refused for a reason that is not one of capacity. -/
theorem Fits.unless {c : Prop} [Decidable c] {fault : Fault} {next : Parser α}
    (hfault : fault.category ≠ .capacity) (hnext : Fits next) :
    Fits (if c then throw fault else next) :=
  (fits_throw hfault).ite hnext

theorem fits_of_error {p : Parser α}
    (h : ∀ {r fault r'}, p r = .error fault r' → fault.category ≠ .capacity) : Fits p :=
  fun _ => ends_of (fun _ _ _ => trivial) (fun _ _ => h)

theorem Fits.atomic {p : Parser α} (hp : Fits p) : Fits (Action.atomic p) := by
  refine fits_of_error fun {r fault r'} hrun => ?_
  unfold Action.atomic at hrun
  split at hrun
  · cases hrun
  · rename_i found r'' herror
    cases hrun
    exact (hp r).of_error herror

theorem Fits.times {p : Parser Unit} (hp : Fits p) (count : Nat) : Fits (Action.times p count) := by
  induction count with
  | zero => exact fits_pure _
  | succ count ih => exact hp.bind fun _ => ih

/-! ### Bytes, integers and names -/

theorem fits_take (look : Reader → Option α) (width : Nat) : Fits (take look width) := by
  refine fits_of_error fun hrun => ?_
  unfold take at hrun
  split at hrun
  · cases hrun
  · cases hrun
    decide

theorem fits_byte : Fits byte := fits_take _ _

theorem fits_word32 : Fits word32 := (fits_take _ _).map _

theorem fits_word64 : Fits word64 := (fits_take _ _).map _

theorem fits_skip (count : Nat) : Fits (skip count) := (fits_take _ _).bind fun _ => fits_pure _

theorem fits_sub (count : Nat) : Fits (sub count) := (fits_take _ _).map _

theorem fits_leb128 (form : Leb128.Form) (bits : Nat) : Fits (leb128 form bits) := by
  refine fits_of_error fun hrun => ?_
  obtain ⟨-, ⟨rfl, -⟩ | rfl | rfl⟩ := leb128_error hrun <;> decide

theorem fits_uleb32 : Fits uleb32 := (fits_leb128 _ _).map _

theorem fits_sleb32 : Fits sleb32 := (fits_leb128 _ _).map _

theorem fits_sleb33 : Fits sleb33 := (fits_leb128 _ _).map _

theorem fits_sleb64 : Fits sleb64 := fits_leb128 _ _

theorem fits_text (length : Nat) : Fits (text length) := by
  refine ((fits_take _ _).bind fun bytes => ?_).atomic
  split
  · exact fits_pure _
  · exact fits_throw (by decide)

theorem fits_name (maxLength : Nat) : Fits (name maxLength) :=
  (fits_uleb32.bind fun _ => .unless (by decide) (fits_text _)).atomic

/-! ### Entries -/

theorem fits_valueType : Fits valueType := by
  refine fits_byte.bind fun b => fits_ofExcept fun fault h => ?_
  unfold ValueType.ofByte at h
  split at h
  · cases h
  · cases h
    decide

theorem fits_valueTypes (count : Nat) : Fits (valueTypes count) := by
  induction count with
  | zero => exact fits_pure _
  | succ count ih => exact fits_valueType.bind fun _ => ih.bind fun _ => fits_pure _

theorem fits_sizeLimits : Fits sizeLimits := by
  refine fits_byte.bind fun flag => ?_
  split
  · exact fits_uleb32.bind fun _ => fits_pure _
  · exact fits_uleb32.bind fun _ => fits_uleb32.bind fun _ => .unless (by decide) (fits_pure _)
  · exact fits_throw (by decide)

theorem fits_memoryLimits : Fits memoryLimits :=
  fits_sizeLimits.bind fun _ => .unless (by decide) (fits_pure _)

theorem fits_globalType : Fits globalType := by
  refine fits_valueType.bind fun type => fits_byte.bind fun flag => ?_
  split
  · exact fits_pure _
  · exact fits_pure _
  · exact fits_throw (by decide)

theorem fits_typeIndex (types : Nat) : Fits (typeIndex types) :=
  fits_uleb32.bind fun _ => .unless (by decide) (fits_pure _)

theorem fits_importDesc (types : Nat) : Fits (importDesc types) := by
  refine fits_byte.bind fun kind => ?_
  split
  · exact (fits_typeIndex _).bind fun _ => fits_pure _
  · exact fits_byte.bind fun _ => .unless (by decide) (fits_sizeLimits.bind fun _ => fits_pure _)
  · exact fits_memoryLimits.bind fun _ => fits_pure _
  · exact fits_globalType.bind fun _ => fits_pure _
  · exact fits_byte.bind fun _ => .unless (by decide) ((fits_typeIndex _).bind fun _ => fits_pure _)
  · exact fits_throw (by decide)

theorem fits_importEntry (types : Nat) : Fits (importEntry types) :=
  (fits_name _).bind fun _ => (fits_name _).bind fun _ =>
    (fits_importDesc _).bind fun _ => fits_pure _

theorem fits_constantOf (opcode : Opcode) : Fits (constantOf opcode) := by
  unfold constantOf
  split
  · exact fits_sleb32.map _
  · exact fits_sleb64.map _
  · exact fits_word32.map _
  · exact fits_word64.map _
  · exact fits_throw (by decide)

theorem fits_constant (expected : ValueType) : Fits (constant expected) := by
  refine fits_byte.bind fun code => ?_
  split
  · exact fits_throw (by decide)
  · exact (fits_constantOf _).bind fun _ => fits_byte.bind fun _ =>
      .unless (by decide) (.unless (by decide) (fits_pure _))

theorem fits_globalEntry : Fits globalEntry :=
  fits_globalType.bind fun _ => (fits_constant _).bind fun _ => fits_pure _

theorem fits_exportEntry : Fits exportEntry := by
  refine (fits_name _).bind fun _ => fits_byte.bind fun kind => fits_uleb32.bind fun index => ?_
  split
  · exact fits_pure _
  · exact fits_pure _
  · exact fits_pure _
  · exact fits_pure _
  · exact fits_throw (by decide)

theorem fits_dataMode : Fits dataMode :=
  fits_uleb32.bind fun _ => .ite (fits_pure _) <|
    .ite (fits_uleb32.bind fun _ => .unless (by decide) (fits_pure _)) <|
      .ite (fits_throw (by decide)) (fits_throw (by decide))

theorem fits_dataOffset : Fits dataOffset := by
  refine (fits_constant _).bind fun offset => ?_
  split
  · exact fits_pure _
  · exact fits_throw (by decide)

theorem fits_dataSegment : Fits dataSegment :=
  fits_dataMode.bind fun _ => fits_dataOffset.bind fun _ => fits_uleb32.bind fun _ =>
    (fits_take _ _).bind fun _ => fits_pure _

/-! ### Instructions -/

theorem fits_opcode : Fits opcode := by
  refine fits_byte.bind fun first => .bind ?_ fun found? => ?_
  · exact (fits_uleb32.map _).ite (fits_pure _)
  · split
    · exact fits_pure _
    · exact fits_throw (by decide)

theorem fits_blockType : Fits blockType := by
  intro r
  refine Fits.ite ((fits_skip _).bind fun _ => fits_pure _) ?_ r
  split
  · exact (fits_skip _).bind fun _ => fits_pure _
  · exact fits_sleb33.bind fun _ => .ite (fits_pure _) (fits_throw (by decide))

theorem fits_immediates (opcode : Opcode) : Fits (immediates opcode) := by
  unfold immediates
  split
  · exact fits_pure _
  · exact fits_uleb32.bind fun _ => fits_pure _
  · exact fits_sleb32.bind fun _ => fits_pure _
  · exact fits_sleb64.bind fun _ => fits_pure _
  · exact fits_word32.bind fun _ => fits_pure _
  · exact fits_word64.bind fun _ => fits_pure _
  · exact fits_blockType.bind fun _ => fits_pure _
  · exact fits_uleb32.bind fun _ => fits_uleb32.bind fun _ => fits_pure _
  · exact fits_uleb32.bind fun _ => fits_uleb32.bind fun _ => fits_pure _
  · exact fits_uleb32.bind fun _ => (fits_uleb32.discard.times _).bind fun _ =>
      fits_uleb32.bind fun _ => fits_pure _
  · exact fits_byte.bind fun _ => .unless (by decide) (fits_pure _)

theorem fits_instruction : Fits instruction :=
  fits_opcode.bind fun _ => (fits_immediates _).bind fun _ => fits_pure _

/-! ### Vectors, and the types of functions -/

theorem count_run {r r' : Reader} {n : UInt32} (h : uleb32 r = .ok n r') (free : Nat) :
    count free r = if free < n.toNat then .error .vectorTooLong r' else .ok n.toNat r' := by
  rw [count, bind_run, h]
  show (if free < n.toNat then (throw .vectorTooLong : Parser Nat) else pure n.toNat) r' = _
  split <;> rfl

theorem count_error {r r' : Reader} {fault : Fault} (h : uleb32 r = .error fault r') (free : Nat) :
    count free r = .error fault r' := by
  rw [count, bind_run, h]

/-- A vector has at most as many elements as there are places, or it is refused behind its length;
a length that cannot be read is another matter. -/
theorem count_ends (free : Nat) (r : Reader) :
    (count free).Ends r
      (fun found r' => found ≤ free ∧ ∃ n, uleb32 r = .ok n r' ∧ n.toNat = found)
      (fun fault r' => fault.category = .capacity →
        fault = .vectorTooLong ∧ ∃ n, uleb32 r = .ok n r' ∧ free < n.toNat) := by
  cases hlength : uleb32 r with
  | error fault r' =>
    refine ends_of (fun _ _ hrun => ?_) (fun _ _ hrun hcapacity => ?_)
    · rw [count_error hlength] at hrun
      cases hrun
    · rw [count_error hlength] at hrun
      cases hrun
      exact absurd hcapacity ((fits_uleb32 r).of_error hlength)
  | ok n r' =>
    refine ends_of (fun found s hrun => ?_) (fun fault s hrun _ => ?_)
    · rw [count_run hlength] at hrun
      split at hrun
      · cases hrun
      · cases hrun
        exact ⟨by omega, n, rfl, rfl⟩
    · rw [count_run hlength] at hrun
      split at hrun
      · cases hrun
        exact ⟨rfl, n, rfl, ‹_›⟩
      · cases hrun

theorem valueTypes_yields (count : Nat) :
    Yields (fun types => types.length = count) (valueTypes count) := by
  induction count with
  | zero => exact yields_pure rfl
  | succ count ih =>
    refine yields_after fun type => ih.bind fun types hlength => yields_pure ?_
    rw [List.length_cons, hlength]

theorem ofLists_fits {params results : List ValueType} (hparams : params.length ≤ maxParams)
    (hresults : results.length ≤ maxResults) :
    ∃ type, FunctionType.ofLists params results = .ok type := by
  obtain ⟨params', hparams', -⟩ := FixedVec.exists_extend_empty hparams
  obtain ⟨results', hresults', -⟩ := FixedVec.exists_extend_empty hresults
  refine ⟨⟨params', results'⟩, ?_⟩
  rw [FunctionType.ofLists, hparams', hresults']
  rfl

/-- The only thing in the type of a function that may not fit are its parameters. -/
theorem functionType_overflows (r : Reader) :
    functionType.Ends r (fun _ _ => True)
      (fun fault r' => fault.category = .capacity → fault = .vectorTooLong ∧
        ∃ tag tagged n, byte r = .ok tag tagged ∧ uleb32 tagged = .ok n r' ∧
          maxParams < n.toNat) := by
  rw [functionType, ends_bind]
  refine ends_of (fun tag tagged htag => ?_)
    (fun _ _ h hcapacity => absurd hcapacity ((fits_byte r).of_error h))
  show (if tag ≠ functionTypeTag then _ else _ : Parser FunctionType).Ends tagged _ _
  split
  · exact fun hcapacity => absurd hcapacity (by decide)
  · rw [ends_bind]
    refine (count_ends maxParams tagged).mono (fun number r₁ hnumber => ?_)
      (fun fault r' h hcapacity => ?_)
    · -- behind the number of parameters everything fits
      refine ((fits_valueTypes number).bind_yields (valueTypes_yields number)
        (fun params hparams => fits_uleb32.bind fun results => ?_) r₁).mono (fun _ _ _ => trivial)
          (fun _ _ hne hcapacity => absurd hcapacity hne)
      show Fits (if maxResults < results.toNat then _ else _)
      split
      · exact fits_throw (by decide)
      · rename_i hresults
        refine (fits_valueTypes _).bind_yields (valueTypes_yields _) fun types htypes => ?_
        refine fits_ofExcept fun fault h => ?_
        obtain ⟨type, hok⟩ := ofLists_fits (by rw [hparams]; exact hnumber.1)
          (by rw [htypes]; omega)
        rw [hok] at h
        cases h
    · obtain ⟨hfault, n, hn, hlt⟩ := h hcapacity
      exact ⟨hfault, tag, tagged, n, htag, hn, hlt⟩

/-! ### Groups of locals -/

theorem localGroups_length (count total : Nat) :
    Yields (fun groups => groups.length = count) (localGroups count total) := by
  induction count generalizing total with
  | zero => exact yields_pure rfl
  | succ count ih =>
    refine yields_after fun number => yields_after fun type => ?_
    show Yields _ (if maxLocalsPerFunction < total + number.toNat then _ else _)
    split
    · exact yields_throw _
    · exact (ih _).bind fun groups hgroups => yields_pure (by rw [List.length_cons, hgroups])

theorem localGroups_run {r r₁ r₂ : Reader} {number : UInt32} {type : ValueType}
    (hnumber : uleb32 r = .ok number r₁) (htype : valueType r₁ = .ok type r₂) (count : Nat)
    {total : Nat} (htotal : total + number.toNat ≤ maxLocalsPerFunction) :
    localGroups (count + 1) total r
      = ((⟨number, type⟩ :: ·) <$> localGroups count (total + number.toNat)) r₂ := by
  rw [localGroups, bind_run, hnumber]
  show (valueType >>= fun type => _) r₁ = _
  rw [bind_run, htype]
  show (if maxLocalsPerFunction < total + number.toNat then _ else _ : Parser _) r₂ = _
  rw [if_neg (by omega)]
  rfl

/-- Groups do not fit when one of them goes beyond the number of locals that a function may have,
with those before it. -/
theorem localGroups_overflows (count total : Nat) (r : Reader) :
    (localGroups count total).Ends r (fun _ _ => True)
      (fun fault _ => fault.category = .capacity → fault = .tooManyLocals ∧
        ∃ k < count, ∃ groups r₁ number r₂, localGroups k total r = .ok groups r₁ ∧
          uleb32 r₁ = .ok number r₂ ∧
          maxLocalsPerFunction < total + LocalGroup.total groups + number.toNat) := by
  induction count generalizing total r with
  | zero => exact trivial
  | succ count ih =>
    rw [localGroups, ends_bind]
    refine ends_of (fun number r₁ hnumber => ?_)
      (fun _ _ h hcapacity => absurd hcapacity ((fits_uleb32 r).of_error h))
    rw [ends_bind]
    refine ends_of (fun type r₂ htype => ?_)
      (fun _ _ h hcapacity => absurd hcapacity ((fits_valueType r₁).of_error h))
    show (if maxLocalsPerFunction < total + number.toNat then _ else _ : Parser _).Ends r₂ _ _
    split
    · rename_i hlt
      exact fun _ => ⟨rfl, 0, Nat.succ_pos _, [], r, number, r₁, rfl, hnumber, hlt⟩
    · rename_i hle
      rw [ends_bind]
      refine (ih (total + number.toNat) r₂).mono (fun _ _ _ => trivial)
        fun fault r' h hcapacity => ?_
      obtain ⟨hfault, k, hk, groups, r₃, next, r₄, hgroups, hnext, hlt⟩ := h hcapacity
      refine ⟨hfault, k + 1, Nat.succ_lt_succ hk, ⟨number, type⟩ :: groups, r₃, next, r₄, ?_, hnext,
        ?_⟩
      · rw [localGroups_run hnumber htype k (by omega), map_run, hgroups]
      · show maxLocalsPerFunction < total + (number.toNat + LocalGroup.total groups) + next.toNat
        omega

end Parser

/-! ### Bodies -/

theorem level_concat (is : List Instruction) (i : Instruction) :
    level (is ++ [i]) = level is + i.rise := by
  induction is with
  | nil => simp
  | cons j is ih =>
    rw [List.cons_append, level_cons, level_cons, ih]
    omega

/-- The level does not depend on the lengths that blocks are given. -/
theorem level_set {is : List Instruction} {position : Nat} {i : Instruction}
    (h : is[position]? = some i) (second : Immediate) :
    level (is.set position { i with second }) = level is := by
  induction is generalizing position with
  | nil => cases h
  | cons j is ih =>
    cases position with
    | zero =>
      obtain rfl : j = i := by simpa using h
      rw [List.set_cons_zero, level_cons, level_cons]
      rfl
    | succ position =>
      rw [List.set_cons_succ, level_cons, level_cons, ih (by simpa using h)]

namespace Body

variable {cap : Nat}

/-- Behind the instructions `old` the table holds others, with `opened` more blocks opened than
closed. -/
def OpenedBehind (old : List Instruction) (opened : Nat) (pool : FixedVec Instruction cap) : Prop :=
  ∃ inner, pool.toList = old ++ inner ∧ level inner = opened

theorem OpenedBehind.put {old : List Instruction} {opened opened' : Nat}
    {pool : FixedVec Instruction cap} (h : OpenedBehind old opened pool) (hroom : pool.length < cap)
    {i : Instruction} (hrise : (opened : Int) + i.rise = opened') :
    OpenedBehind old opened' (pool.put i) := by
  obtain ⟨inner, hpool, hlevel⟩ := h
  refine ⟨inner ++ [i], ?_, by rw [level_concat, hlevel, hrise]⟩
  rw [FixedVec.toList_put_of_lt hroom, hpool, List.append_assoc]

theorem OpenedBehind.set {old : List Instruction} {opened position : Nat}
    {pool : FixedVec Instruction cap} (h : OpenedBehind old opened pool)
    (hposition : old.length ≤ position) {i : Instruction} (hi : pool.get? position = some i)
    (second : Immediate) : OpenedBehind old opened (pool.set position { i with second }) := by
  obtain ⟨inner, hpool, hlevel⟩ := h
  rw [FixedVec.get?_eq, hpool, List.getElem?_append_right hposition] at hi
  refine ⟨inner.set (position - old.length) { i with second }, ?_, by rw [level_set hi, hlevel]⟩
  rw [FixedVec.toList_set, hpool, List.set_append_right _ _ hposition]

/-- What a body may have too much of: an opening too many, or an instruction for which the table has
no place. -/
def Overflows (old : List Instruction) (fault : Fault) (b : Body cap) : Prop :=
  (fault = .blocksTooDeep ∧ OpenedBehind old (maxBlockDepth + 1) b.pool) ∨
    (fault = .tableFull ∧ b.pool.length = cap)

theorem ends_close_opened {old : List Instruction} {opened opening ending : Nat} {b : Body cap}
    {E : Fault → Body cap → Prop} (h : OpenedBehind old opened b.pool)
    (hopening : old.length ≤ opening) :
    (close opening ending).Ends b
      (fun _ b' => OpenedBehind old opened b'.pool ∧ b'.pool.length = b.pool.length) E := by
  unfold close
  rw [ends_modify]
  cases hget : b.pool.get? opening with
  | none => exact ⟨h, rfl⟩
  | some i => exact ⟨h.set hopening hget _, FixedVec.length_set _ _ _⟩

theorem ends_reading_fits {α : Type} {p : Parser α} (hp : p.Fits) {b : Body cap}
    {Q : α → Body cap → Prop} {C : Fault → Body cap → Prop}
    (h : ∀ a r, Q a { b with reader := r }) :
    (reading p).Ends b Q (fun fault b' => fault.category = .capacity → C fault b') := by
  unfold reading
  rw [ends_onPart]
  exact (hp b.reader).mono (fun a r _ => h a r) (fun _ _ hne hcapacity => absurd hcapacity hne)

/-- The invariant is that as many blocks are open behind `old` as are kept in `opened`. -/
theorem instructions_overflows {old : List Instruction} (room : Nat) (opened : List Nat)
    (b : Body cap) (hroom : b.pool.length + room = cap)
    (hbehind : OpenedBehind old opened.length b.pool) (hdepth : opened.length ≤ maxBlockDepth)
    (hopened : ∀ opening ∈ opened, old.length ≤ opening) :
    (instructions room opened).Ends b (fun _ _ => True)
      (fun fault b' => fault.category = .capacity → Overflows old fault b') := by
  induction room generalizing opened b with
  | zero =>
    unfold instructions
    rw [ends_bind]
    exact ends_reading_fits Parser.fits_instruction fun _ _ _ => .inr ⟨rfl, hroom⟩
  | succ room ih =>
    unfold instructions
    rw [ends_bind]
    refine ends_reading_fits Parser.fits_instruction fun next r => ?_
    have hlt : b.pool.length < cap := by omega
    have hlength : (b.pool.put next).length + room = cap := by
      rw [FixedVec.length_put, if_pos hlt]
      omega
    have hle : old.length ≤ b.pool.length := by
      obtain ⟨inner, hpool, -⟩ := hbehind
      rw [← FixedVec.length_toList, hpool, List.length_append]
      omega
    simp only [place, ends_bind, ends_get, ends_modify, ends_pure]
    rcases next.opens_or_ends_or_plain with hopens | hend | ⟨hopens, hend⟩
    · have hput : OpenedBehind old (opened.length + 1) (b.pool.put next) :=
        hbehind.put hlt (by rw [next.rise_of_opens hopens]; rfl)
      rw [if_pos hopens]
      split
      · refine ih _ _ hlength hput ‹_› fun opening h => ?_
        rcases List.mem_cons.mp h with rfl | h
        · exact hle
        · exact hopened opening h
      · rename_i hdeep
        rw [show opened.length = maxBlockDepth by omega] at hput
        exact fun _ => .inl ⟨rfl, hput⟩
    · rw [if_neg (by simp [Instruction.opens_of_end hend]), if_pos hend]
      cases opened with
      | nil => trivial
      | cons opening outer =>
        have hput : OpenedBehind old outer.length (b.pool.put next) :=
          hbehind.put hlt (by rw [next.rise_of_end hend, List.length_cons]; omega)
        rw [ends_bind]
        refine (ends_close_opened hput (hopened opening List.mem_cons_self)).mono ?_ (fun _ _ => id)
        rintro _ b' ⟨hbehind', hlength'⟩
        exact ih _ _ (by rw [hlength']; exact hlength) hbehind' (Nat.le_of_succ_le hdepth)
          fun o ho => hopened o (List.mem_cons_of_mem _ ho)
    · have hput : OpenedBehind old opened.length (b.pool.put next) :=
        hbehind.put hlt (by rw [next.rise_of_plain hopens hend, Int.add_zero])
      rw [if_neg (by simp [hopens]), if_neg hend]
      exact ih _ _ hlength hput hdepth hopened

theorem expression_overflows (b : Body cap) :
    expression.Ends b (fun _ _ => True)
      (fun fault b' => fault.category = .capacity → Overflows b.pool.toList fault b') := by
  unfold expression
  simp only [ends_bind, ends_get, ends_pure]
  have hroom : b.pool.length + b.pool.free = cap := by
    have := b.pool.length_le
    rw [FixedVec.free]
    omega
  exact instructions_overflows b.pool.free [] b hroom ⟨[], by simp, rfl⟩ (Nat.zero_le _) (by simp)

end Body

end BoundedWasm
