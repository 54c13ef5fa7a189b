import BoundedWasm.Proofs.Decode.Body
import BoundedWasm.Proofs.Decode.Entry

/-!
# BoundedWasm.Proofs.Decode.Sections — no section breaks what the ones before it established

Reading the payload of a section into a coherent module leaves a coherent module.  Only the data
section and the data count change what `Module.CoherentWith` fixes; the other eleven are covered by
`contents_ends`.
-/

namespace BoundedWasm.Draft

open BoundedWasm.Action Limits

variable {data : FixedVec DataSegment maxDataSegments} {dataCount : Option UInt32}

/-- Whenever `action` succeeds on a draft whose module satisfies `I`, the module still does. -/
def Maintains (I : Module → Prop) (action : Action Draft Unit) : Prop :=
  ∀ d, I d.module → action.Ends d (fun _ d' => I d'.module) (fun _ _ => True)

theorem ends_reading {α : Type} {P : α → Prop} {p : Parser α} (hp : p.Yields P) {d : Draft}
    {Q : α → Draft → Prop} (h : ∀ a r, P a → Q a { d with reader := r }) :
    (reading p).Ends d Q (fun _ _ => True) := by
  unfold reading
  rw [ends_onPart]
  exact (hp d.reader).mono (fun a r ha => h a r ha) (fun _ _ => id)

theorem ends_update {f : Module → Except Fault Module} {d : Draft} {Q : Unit → Draft → Prop}
    (h : ∀ m, f d.module = .ok m → Q () { d with module := m }) :
    (update f).Ends d Q (fun _ _ => True) := by
  unfold update
  rw [ends_bind, ends_get, ends_bind, ends_ofExcept]
  exact ⟨h, fun _ _ => trivial⟩

theorem maintains_times {I : Module → Prop} {action : Action Draft Unit} (h : Maintains I action)
    (count : Nat) : Maintains I (times action count) :=
  fun _ hd => ends_times (fun _ d' => I d'.module) (fun _ d' => h d') count 0 hd

theorem maintains_entries {I : Module → Prop} {entry : Action Draft Unit} (h : Maintains I entry)
    (free : Module → Nat) : Maintains I (entries free entry) := by
  intro d hd
  unfold entries
  rw [ends_bind, ends_get, ends_bind]
  exact ends_reading (Parser.yields_any _) fun count r _ => maintains_times h count _ hd

/-! ### Tables of definitions -/

theorem typeSection_maintains : Maintains (Module.CoherentWith data dataCount) typeSection := by
  refine maintains_entries (fun d hd => ?_) _
  rw [ends_bind]
  exact ends_reading (Parser.yields_any _) fun _ _ _ => ends_update fun _ hm => hd.addType hm

theorem importSection_maintains :
    Maintains (Module.CoherentWith data dataCount) importSection := by
  refine maintains_entries (fun d hd => ?_) _
  rw [ends_bind, ends_get, ends_bind]
  refine ends_reading (Parser.importEntry_yields _) fun entry r hentry => ?_
  rw [ends_bind]
  exact ends_update fun _ hm₁ => ends_update fun _ hm => hd.addImport hentry hm₁ hm

theorem functionSection_maintains :
    Maintains (Module.CoherentWith data dataCount) functionSection := by
  refine maintains_entries (fun d hd => ?_) _
  rw [ends_bind, ends_get, ends_bind]
  exact ends_reading (Parser.typeIndex_yields _) fun _ _ hlt =>
    ends_update fun _ hm => hd.addFunction hlt hm

theorem tableSection_maintains : Maintains (Module.CoherentWith data dataCount) tableSection := by
  intro d hd
  unfold tableSection
  rw [ends_bind]
  refine ends_reading (Parser.yields_any _) fun count r _ => ?_
  split
  · trivial
  · exact hd

theorem memorySection_maintains :
    Maintains (Module.CoherentWith data dataCount) memorySection := by
  intro d hd
  unfold memorySection
  rw [ends_bind, ends_get, ends_bind]
  refine ends_reading (Parser.yields_any _) fun count r _ => ?_
  simp only
  split
  · trivial
  · refine maintains_times (fun d hd => ?_) count _ hd
    rw [ends_bind]
    exact ends_reading Parser.memoryLimits_yields fun _ _ hpages =>
      ends_update fun _ hm => hd.addMemory hpages hm

theorem globalSection_maintains :
    Maintains (Module.CoherentWith data dataCount) globalSection := by
  refine maintains_entries (fun d hd => ?_) _
  rw [ends_bind]
  exact ends_reading Parser.globalEntry_yields fun _ _ htyped =>
    ends_update fun _ hm => hd.addGlobal htyped hm

theorem exportSection_maintains :
    Maintains (Module.CoherentWith data dataCount) exportSection := by
  refine maintains_entries (fun d hd => ?_) _
  rw [ends_bind]
  exact ends_reading (Parser.yields_any _) fun _ _ _ => ends_update fun _ hm => hd.addExport hm

theorem startSection_maintains : Maintains (Module.CoherentWith data dataCount) startSection := by
  intro d hd
  unfold startSection
  rw [ends_bind]
  exact ends_reading (Parser.yields_any _) fun _ _ _ => { hd with }

/-! ### Bodies -/

theorem ends_onBody {α : Type} {action : Action (Body maxInstructions) α} {d : Draft}
    {P : α → Body maxInstructions → Prop} {E : Fault → Body maxInstructions → Prop}
    (h : action.Ends ⟨d.reader, d.module.instructions⟩ P E)
    {Q : α → Draft → Prop}
    (hQ : ∀ a b, P a b → Q a ⟨b.reader, { d.module with instructions := b.pool }⟩) :
    (onBody action).Ends d Q (fun _ _ => True) := by
  unfold onBody
  rw [ends_onPart]
  exact h.mono (fun a b hb => hQ a b hb) (fun _ _ _ => trivial)

theorem groups_yield :
    Parser.Yields (fun groups => LocalGroup.total groups ≤ maxLocalsPerFunction)
      (do Parser.localGroups (← Parser.count maxLocalGroups) 0) :=
  Parser.yields_after fun count =>
    (Parser.localGroups_yields count 0 (Nat.zero_le _)).mono fun groups h => by omega

theorem code_maintains (size : UInt32) :
    Maintains (Module.CoherentWith data dataCount) (code size) := by
  intro d hd
  unfold code
  rw [ends_bind]
  refine ends_reading groups_yield fun groups r hgroups => ?_
  rw [ends_bind, ends_ofExcept]
  refine ⟨fun locals hlocals => ?_, fun _ _ => trivial⟩
  rw [ends_bind]
  refine ends_onBody (Body.expression_ends _) ?_
  rintro ⟨start, length⟩ b ⟨hextends, hstart, hspan⟩
  obtain ⟨⟨body, hbody⟩, hlt, hend⟩ := hextends
  simp only at hbody hlt hend hstart hspan
  simp only [ends_bind, ends_get]
  split
  · trivial
  · refine ends_update fun m' hm' => ?_
    -- every number is below the capacity of its table, so the words hold them
    have hsize : UInt32.size = 4294967296 := rfl
    have hpool := b.pool.length_le
    have hsum : d.module.instructions.length + body.length = b.pool.length := by
      rw [← FixedVec.length_toList b.pool, ← hbody, List.length_append, FixedVec.length_toList]
    rw [FixedVec.length_toList, FixedVec.length_toList] at hlt
    rw [FixedVec.length_toList] at hend
    simp only [maxInstructions] at hpool
    have hlocals' : locals.toList = groups := by
      simpa using FixedVec.toList_of_extend hlocals
    simp only [maxLocalsPerFunction] at hgroups
    refine hd.addCode hbody.symm (by omega) hend ?_ ?_ ?_ hm'
    · rw [UInt32.toNat_ofNat_of_lt' (by omega), hstart]
    · rw [UInt32.toNat_ofNat_of_lt' (by omega)]
      omega
    · have hnum : (UInt32.ofNat (LocalGroup.total groups)).toNat = LocalGroup.total groups :=
        UInt32.toNat_ofNat_of_lt' (by omega)
      exact ⟨by rw [hnum, hlocals'], by rw [hnum]; exact hgroups⟩

theorem within_maintains {I : Module → Prop} {action : Action Draft Unit} (h : Maintains I action)
    (part : Reader) : Maintains I (within part action) := by
  intro d hd
  unfold within
  rw [ends_onPart]
  exact h _ hd

theorem codeSection_maintains : Maintains (Module.CoherentWith data dataCount) codeSection := by
  intro d hd
  unfold codeSection
  rw [ends_bind, ends_get, ends_bind]
  refine ends_reading (Parser.yields_any _) fun count r _ => ?_
  simp only
  split
  · trivial
  · refine maintains_times (fun d hd => ?_) count _ hd
    rw [ends_bind]
    refine ends_reading (Parser.yields_any _) fun size r _ => ?_
    rw [ends_bind]
    exact ends_reading (Parser.yields_any _) fun part r _ =>
      within_maintains (code_maintains size) part _ hd

/-- Of the sections, only the data section changes the data, and only the data count its number. -/
theorem contents_maintains {id : SectionId} (hdata : id ≠ .data) (hcount : id ≠ .dataCount) :
    Maintains (Module.CoherentWith data dataCount) (contents id) := by
  cases id with
  | custom => exact fun d hd => hd
  | type => exact typeSection_maintains
  | imports => exact importSection_maintains
  | function => exact functionSection_maintains
  | table => exact tableSection_maintains
  | memory => exact memorySection_maintains
  | global => exact globalSection_maintains
  | exports => exact exportSection_maintains
  | start => exact startSection_maintains
  | element => exact tableSection_maintains
  | code => exact codeSection_maintains
  | data => exact absurd rfl hdata
  | dataCount => exact absurd rfl hcount

/-! ### Data -/

theorem dataCountSection_ends {d : Draft} (hd : d.module.CoherentWith data dataCount) :
    dataCountSection.Ends d (fun _ d' => ∃ count, d'.module.CoherentWith data (some count))
      (fun _ _ => True) := by
  unfold dataCountSection
  rw [ends_bind]
  exact ends_reading (Parser.yields_any _) fun count _ _ => ⟨count, { hd with dataCount_eq := rfl }⟩

/-- The segments of a data section are as many as were announced. -/
theorem dataSection_ends {d : Draft} (hd : d.module.CoherentWith data dataCount)
    (hempty : data.length = 0) :
    dataSection.Ends d
      (fun _ d' => d'.module.Coherent ∧ d'.module.dataCount = dataCount ∧
        ∀ count, dataCount = some count → count.toNat = d'.module.data.length)
      (fun _ _ => True) := by
  unfold dataSection
  rw [ends_bind, ends_get, ends_bind]
  refine ends_reading (Parser.yields_any _) fun count r _ => ?_
  simp only
  split
  · trivial
  · rename_i hcount
    refine (ends_times (fun k d' => d'.module.Coherent ∧ d'.module.dataCount = dataCount ∧
      d'.module.data.length = k) ?_ count 0 ⟨hd.toCoherent, hd.dataCount_eq, ?_⟩).mono ?_
      (fun _ _ => id)
    · rintro k d' ⟨hcoherent, heq, hlength⟩
      rw [ends_bind]
      refine ends_reading (Parser.yields_any _) fun segment r _ => ends_update fun m' hm' => ?_
      obtain ⟨w, hw, rfl⟩ := Module.grow_ok (fun data => { d'.module with data }) hm'
      refine ⟨{ hcoherent with }, heq, ?_⟩
      show w.length = k + 1
      rw [← FixedVec.length_toList w, hw, List.length_append, FixedVec.length_toList, hlength]
      rfl
    · rw [hd.data_eq]
      exact hempty
    · rintro _ d' ⟨hcoherent, heq, hlength⟩
      refine ⟨hcoherent, heq, fun announced h => ?_⟩
      rw [hd.dataCount_eq, h] at hcount
      rw [hlength]
      simpa using hcount

end BoundedWasm.Draft
