import BoundedWasm.Decode.Module
import BoundedWasm.Proofs.Decode.Sections

/-!
# BoundedWasm.Proofs.Decode.Module — every decoded module is well formed

What the contents of every section keep, given that it comes after those before it, holds of every
decoded module (`Decoding.Invariant`).  One invariant of this loop over sections is
`Decoding.Sound`: the module is coherent, and the data count and the data agree as far as both were
read.  The second half needs the order of sections: the data section is the last, so when the data
count is read there are no data yet.  What the invariant leaves open is checked once all sections
are read (`Module.agreementFault?`), and the two together give `wellFormed_of_decoded`.
-/

namespace BoundedWasm

open BoundedWasm.Action

/-! ### Order of sections -/

namespace SectionReader

theorem ends_reading {α : Type} {p : Parser α} {s : SectionReader} {Q : α → SectionReader → Prop}
    (h : ∀ a r, Q a { s with reader := r }) : (reading p).Ends s Q (fun _ _ => True) := by
  unfold reading
  rw [ends_onPart]
  exact ends_of (fun a r _ => h a r) (fun _ _ _ => trivial)

/-- A section that is given comes after the one given before it. -/
theorem nextWithin_ends (room : Nat) (s : SectionReader) :
    (nextWithin room).Ends s
      (fun found? s' => ∀ found, found? = some found →
        s.lastOrder < found.id.order ∧ s'.lastOrder = found.id.order)
      (fun _ _ => True) := by
  induction room generalizing s with
  | zero => exact fun found h => by cases h
  | succ room ih =>
    unfold nextWithin
    rw [ends_bind, ends_get]
    split
    · exact fun found h => by cases h
    · rw [ends_bind]
      refine ends_reading fun found r => ?_
      split
      · split
        · trivial
        · rw [ends_bind]
          exact ih { s with reader := r, log := _ }
      · rw [ends_bind, ends_get]
        split
        · trivial
        · rename_i horder
          rintro _ ⟨⟩
          exact ⟨Nat.lt_of_not_le horder, rfl⟩

end SectionReader

namespace SectionId

/-- The data section is the only one of its rank. -/
theorem order_lt_data {id : SectionId} (h : id ≠ .data) : id.order < SectionId.data.order := by
  cases id <;> first | decide | exact absurd rfl h

end SectionId

/-! ### The loop over sections -/

namespace Decoding

/-- What holds of a partly decoded module and the rank of its last section: it has nothing to do
with the log, and the contents of a section that comes after those before it keep it. -/
structure Invariant (I : (lastOrder : Nat) → Decoding → Prop) : Prop where
  of_module : ∀ {lastOrder d d'}, I lastOrder d → d'.module = d.module → d'.sawData = d.sawData →
    I lastOrder d'
  contents_ends : ∀ {found : Section} {lastOrder d}, I lastOrder d → lastOrder < found.id.order →
    (contents found).Ends { d with sawData := d.sawData || found.id = .data }
      (fun _ d' => I found.id.order d' ∧ d'.sections = d.sections) (fun _ _ => True)

theorem ends_contents {found : Section} {d : Decoding} {P : Module → Prop}
    (h : (Draft.contents found.id).Ends ⟨.ofBytes found.payload, d.module⟩
      (fun _ d' => P d'.module) (fun _ _ => True))
    {Q : Reader → Decoding → Prop} (hQ : ∀ r m, P m → Q r { d with module := m }) :
    (contents found).Ends d Q (fun _ _ => True) := by
  unfold contents
  rw [ends_onPart, ends_bind]
  exact h.mono (fun _ d' hd' => hQ _ _ hd') (fun _ _ => id)

namespace Invariant

variable {I : (lastOrder : Nat) → Decoding → Prop} (hI : Invariant I)

include hI

theorem decodeSection_ends {found : Section} {lastOrder : Nat} {d : Decoding}
    (h : I lastOrder d) (hlt : lastOrder < found.id.order) :
    (decodeSection found).Ends d
      (fun _ d' => I found.id.order d' ∧ d'.sections.lastOrder = d.sections.lastOrder)
      (fun _ _ => True) := by
  unfold decodeSection
  rw [ends_bind, ends_modify, ends_bind]
  refine (hI.contents_ends h hlt).mono (fun reader d' ⟨hd', hsections⟩ => ?_) (fun _ _ => id)
  simp only
  split
  · exact ends_of (fun _ _ heq => by cases heq) (fun _ _ _ => trivial)
  · refine ⟨hI.of_module hd' rfl rfl, ?_⟩
    show d'.sections.lastOrder = d.sections.lastOrder
    rw [hsections]

theorem decodeSections_ends (room : Nat) (d : Decoding) (h : I d.sections.lastOrder d) :
    (decodeSections room).Ends d (fun _ d' => ∃ lastOrder, I lastOrder d') (fun _ _ => True) := by
  induction room generalizing d with
  | zero => exact ⟨_, h⟩
  | succ room ih =>
    unfold decodeSections
    rw [ends_bind]
    unfold nextSection?
    rw [ends_onPart]
    unfold SectionReader.next?
    rw [ends_bind, ends_get]
    refine (SectionReader.nextWithin_ends _ _).mono (fun found? s hfound => ?_) (fun _ _ => id)
    cases found? with
    | none => exact ⟨_, hI.of_module h rfl rfl⟩
    | some found =>
      obtain ⟨hlt, hlast⟩ := hfound found rfl
      rw [ends_bind]
      have hsections : I d.sections.lastOrder { d with sections := s } := hI.of_module h rfl rfl
      refine (hI.decodeSection_ends hsections hlt).mono ?_ (fun _ _ => id)
      rintro _ d' ⟨hd', hlast'⟩
      refine ih d' ?_
      rw [hlast', hlast]
      exact hd'

theorem decodeAll_ends {d : Decoding} (h : I d.sections.lastOrder d) :
    decodeAll.Ends d
      (fun _ d' => (∃ lastOrder, I lastOrder d') ∧ d'.module.agreementFault? d'.sawData = none)
      (fun _ _ => True) := by
  unfold decodeAll
  rw [ends_bind, ends_get, ends_bind]
  refine (hI.decodeSections_ends _ d h).mono (fun _ d' hd' => ?_) (fun _ _ => id)
  rw [ends_bind, ends_get]
  cases hfault : d'.module.agreementFault? d'.sawData with
  | some fault => trivial
  | none => exact ⟨hd', hfault⟩

/-- A decoded module stands at the end of a decoding without an open fault, and what holds at the
start and is kept holds there. -/
theorem of_decoded (hstart : ∀ sections : SectionReader,
      I sections.lastOrder ⟨sections, .empty, false⟩)
    {bytes : List UInt8} {m : Module} (h : Module.ofBytes bytes = .ok m) :
    ∃ lastOrder d, I lastOrder d ∧ m.agreementFault? d.sawData = none ∧ d.module = m := by
  unfold Module.ofBytes Assembly.decode at h
  cases hsections : SectionReader.ofBytes bytes with
  | error fault =>
    rw [hsections] at h
    cases h
  | ok sections =>
    simp only [hsections, Module.clear_eq_empty] at h
    have hends := hI.decodeAll_ends (d := ⟨sections, .empty, false⟩) (hstart sections)
    cases hrun : decodeAll ⟨sections, .empty, false⟩ with
    | error fault d =>
      simp only [hrun] at h
      cases h
    | ok _ d =>
      simp only [hrun] at h
      cases h
      obtain ⟨⟨lastOrder, hd⟩, hfault⟩ := hends.of_ok hrun
      exact ⟨lastOrder, d, hd, hfault, rfl⟩

end Invariant

/-! ### Coherence -/

/-- What holds of a partly decoded module when the last section had the rank `lastOrder`. -/
structure Sound (lastOrder : Nat) (d : Decoding) : Prop where
  coherent : d.module.Coherent
  unseen : lastOrder < SectionId.data.order → d.sawData = false
  empty : d.sawData = false → d.module.data.length = 0
  counted : d.sawData = true →
    ∀ count, d.module.dataCount = some count → count.toNat = d.module.data.length

/-- What is written to the log does not matter. -/
theorem Sound.of_module {lastOrder : Nat} {d d' : Decoding} (h : Sound lastOrder d)
    (hmodule : d'.module = d.module) (hsaw : d'.sawData = d.sawData) : Sound lastOrder d' := by
  refine ⟨?_, ?_, ?_, ?_⟩
  · rw [hmodule]
    exact h.coherent
  · rw [hsaw]
    exact h.unseen
  · rw [hsaw, hmodule]
    exact h.empty
  · rw [hsaw, hmodule]
    exact h.counted

theorem Sound.coherentWith {lastOrder : Nat} {d : Decoding} (h : Sound lastOrder d) :
    d.module.CoherentWith d.module.data d.module.dataCount :=
  { h.coherent with data_eq := rfl, dataCount_eq := rfl }

/-- The contents of a section that comes after those before it. -/
theorem contents_ends {found : Section} {lastOrder : Nat} {d : Decoding} (h : Sound lastOrder d)
    (hlt : lastOrder < found.id.order) :
    (contents found).Ends { d with sawData := d.sawData || found.id = .data }
      (fun _ d' => Sound found.id.order d' ∧ d'.sections = d.sections) (fun _ _ => True) := by
  by_cases hdata : found.id = .data
  · have hunseen : d.sawData = false := h.unseen (hdata ▸ hlt)
    have hends := Draft.dataSection_ends (d := ⟨.ofBytes found.payload, d.module⟩)
      h.coherentWith (h.empty hunseen)
    refine ends_contents (P := fun m => m.Coherent ∧ ∀ count, m.dataCount = some count →
      count.toNat = m.data.length) ?_ ?_
    · rw [hdata]
      exact hends.mono (fun _ d' ⟨hc, heq, hn⟩ => ⟨hc, heq ▸ hn⟩) (fun _ _ => id)
    · rintro r m ⟨hc, hn⟩
      refine ⟨⟨hc, fun hlt' => ?_, fun hsaw => by simp [hdata] at hsaw, fun _ => hn⟩, rfl⟩
      rw [hdata] at hlt'
      omega
  · have hrank := SectionId.order_lt_data hdata
    have hunseen : d.sawData = false := h.unseen (Nat.lt_trans hlt hrank)
    have hsaw : (d.sawData || decide (found.id = .data)) = false := by simp [hunseen, hdata]
    refine ends_contents (P := fun m => m.Coherent ∧ m.data = d.module.data) ?_ ?_
    · by_cases hcount : found.id = .dataCount
      · rw [hcount]
        exact (Draft.dataCountSection_ends h.coherentWith).mono
          (fun _ d' ⟨_, hm⟩ => ⟨hm.toCoherent, hm.data_eq⟩) (fun _ _ => id)
      · exact (Draft.contents_maintains hdata hcount _ h.coherentWith).mono
          (fun _ d' hm => ⟨hm.toCoherent, hm.data_eq⟩) (fun _ _ => id)
    · rintro r m ⟨hc, heq⟩
      refine ⟨⟨hc, fun _ => hsaw, fun _ => ?_, fun h' => ?_⟩, rfl⟩
      · show m.data.length = 0
        rw [heq]
        exact h.empty hunseen
      · rw [show _ = _ from hsaw] at h'
        cases h'

theorem sound_invariant : Invariant Sound := ⟨Sound.of_module, contents_ends⟩

end Decoding

/-! ### The whole module -/

namespace Module

variable {m : Module}

theorem nodup_names {exports : List Export}
    (h : ∀ entry ∈ exports, exports.countP (fun other => other.name == entry.name) ≤ 1) :
    (exports.map Export.name).Nodup := by
  rw [List.nodup_iff_count]
  intro name
  by_cases hname : name ∈ exports.map Export.name
  · obtain ⟨entry, hentry, rfl⟩ := List.mem_map.mp hname
    rw [List.count, List.countP_map]
    exact h entry hentry
  · rw [List.count_eq_zero.mpr hname]
    exact Nat.zero_le 1

theorem hasExported_iff (desc : ExportDesc) :
    m.hasExported desc = true ↔ desc.index.toNat < m.spaceOf desc := by
  cases desc <;> exact decide_eq_true_iff

theorem exportFault?_eq_none {entry : Export} (h : m.exportFault? entry = none) :
    entry.desc.index.toNat < m.spaceOf entry.desc ∧
      m.exports.toList.countP (fun other => other.name == entry.name) ≤ 1 := by
  unfold exportFault? at h
  split at h
  · cases h
  · rename_i hhas
    split at h
    · cases h
    · rename_i hcount
      refine ⟨(hasExported_iff entry.desc).mp ?_, Nat.le_of_not_lt hcount⟩
      simpa using hhas

/-- What the loop established and what is checked after it. -/
theorem wellFormed_of_sound {lastOrder : Nat} {d : Decoding} (hd : d.Sound lastOrder)
    (h : d.module.agreementFault? d.sawData = none) : d.module.WellFormed := by
  unfold agreementFault? at h
  split at h
  · cases h
  rename_i hcodes
  split at h
  · cases h
  rename_i hmissing
  split at h
  · cases h
  rename_i hstart
  have hexports := List.findSome?_eq_none_iff.mp h
  refine { hd.coherent with
    codes_length := Decidable.not_not.mp hcodes
    start_lt := fun index hi => ?_
    exports_lt := fun entry he => (exportFault?_eq_none (hexports entry he)).1
    exports_nodup := nodup_names fun entry he => (exportFault?_eq_none (hexports entry he)).2
    dataCount_eq := fun count hcount => ?_ }
  · rw [hi] at hstart
    simpa using hstart
  · cases hsaw : d.sawData with
    | true => exact hd.counted hsaw count hcount
    | false =>
      rw [hsaw, hcount] at hmissing
      have hzero : count = 0 := by simpa using hmissing
      rw [hd.empty hsaw, hzero]
      rfl

theorem coherent_empty : Module.empty.Coherent where
  bindings := rfl
  functions := by simp [empty]
  imports := by simp [empty]
  memories := by simp [empty]
  globals := by simp [empty]
  codes := by simp [empty]
  bodies := by simp [empty, Tiles]

theorem sound_start (sections : SectionReader) :
    Decoding.Sound sections.lastOrder ⟨sections, .empty, false⟩ :=
  ⟨coherent_empty, fun _ => rfl, fun _ => rfl, fun hsaw => by cases hsaw⟩

/-- A decoded module stands at the end of a sound decoding without an open fault. -/
theorem sound_of_decoded {bytes : List UInt8} (h : Module.ofBytes bytes = .ok m) :
    ∃ lastOrder d, Decoding.Sound lastOrder d ∧ m.agreementFault? d.sawData = none ∧
      d.module = m :=
  Decoding.sound_invariant.of_decoded sound_start h

/-- Every module that decodes is well formed: its tables agree with each other, its limits,
initializers and groups of locals are in order, and its bodies tile the table of instructions. -/
theorem wellFormed_of_decoded {bytes : List UInt8} (h : Module.ofBytes bytes = .ok m) :
    m.WellFormed := by
  obtain ⟨lastOrder, d, hsound, hfault, rfl⟩ := sound_of_decoded h
  exact wellFormed_of_sound hsound hfault

/-- A module of two functions: the first answers seven, the second adds to its argument what the
first answers.  It has a memory of at most one page and a mutable global, and it exports the second
function. -/
def adderBytes : List UInt8 :=
  [0x00, 0x61, 0x73, 0x6D, 0x01, 0x00, 0x00, 0x00,
    0x01, 0x0A, 0x02, 0x60, 0x00, 0x01, 0x7F, 0x60, 0x01, 0x7F, 0x01, 0x7F,
    0x03, 0x03, 0x02, 0x00, 0x01,
    0x05, 0x04, 0x01, 0x01, 0x00, 0x01,
    0x06, 0x06, 0x01, 0x7F, 0x01, 0x41, 0x05, 0x0B,
    0x07, 0x05, 0x01, 0x01, 0x66, 0x00, 0x01,
    0x0A, 0x10, 0x02, 0x04, 0x00, 0x41, 0x07, 0x0B,
    0x09, 0x01, 0x01, 0x7F, 0x20, 0x00, 0x10, 0x00, 0x6A, 0x0B]

theorem adder_decodes : ∃ m, Module.ofBytes adderBytes = .ok m :=
  exists_ok_of_isOk (by decide +kernel)

theorem adder_wellFormed : ∃ m, Module.ofBytes adderBytes = .ok m ∧ m.WellFormed := by
  obtain ⟨m, hm⟩ := adder_decodes
  exact ⟨m, hm, wellFormed_of_decoded hm⟩

end Module

end BoundedWasm
