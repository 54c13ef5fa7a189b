import BoundedWasm.Proofs.Decode.Module
import BoundedWasm.Proofs.Encoding.Sections

/-!
# BoundedWasm.Proofs.Encoding.RoundTrip — decoding undoes encoding

The reader of sections finds the sections of a module that were written, in their order, whatever
custom sections stand between them (`SectionsBy.next`).  What the loop over sections keeps is
`Decoding.Awaits`: the tables of the sections that were read hold what they held when they were
written, those of the others are still empty.  At its end the module is the one that was written,
without any binding.
-/

namespace BoundedWasm

open BoundedWasm.Action Limits

/-! ### Frames -/

namespace SectionReader

theorem frame_run {id : SectionId} {payload bytes : List UInt8} (h : FrameBy id payload bytes)
    (position : Nat) (rest : List UInt8) :
    ∃ offset, frame ⟨position, bytes ++ rest⟩
      = .ok ⟨id, offset, payload⟩ ⟨position + bytes.length, rest⟩ := by
  obtain ⟨hsize⟩ := h
  rename_i size
  obtain ⟨n, hn, hreads⟩ := Parser.exists_uleb32 hsize
  have hnumber : (UInt8.ofNat id.number).toNat = id.number :=
    UInt8.toNat_ofNat_of_lt' (by cases id <;> decide)
  have hbyte := Parser.reads_byte (UInt8.ofNat id.number) position (size ++ (payload ++ rest))
  have hpayload := Parser.reads_bytes payload (position + 1 + size.length) rest
  have hbytes : UInt8.ofNat id.number :: (size ++ payload) ++ rest
      = [UInt8.ofNat id.number] ++ (size ++ (payload ++ rest)) := by simp
  have hposition : position + (UInt8.ofNat id.number :: (size ++ payload)).length
      = position + 1 + size.length + payload.length := by
    simp only [List.length_cons, List.length_append]
    omega
  refine ⟨position + 1 + size.length, ?_⟩
  rw [hbytes, hposition, frame, bind_run, hbyte]
  simp only [hnumber, SectionId.ofNumber?_number]
  rw [bind_run, hreads]
  show (Parser.bytes n.toNat >>= fun payload => _) _ = _
  rw [bind_run, hn]
  simp only [List.length_singleton]
  rw [hpayload]
  rfl

theorem customName_ok {payload : List UInt8} (h : CustomBy payload) :
    ∃ name, customName payload = .ok name := by
  obtain ⟨hname, more⟩ := h
  rename_i name bytes
  obtain ⟨hsize⟩ := hname
  obtain ⟨n, hn, hreads⟩ := Parser.exists_uleb32 hsize
  have htext : Reads (do Parser.text (← Parser.uleb32).toNat : Parser String) _ name :=
    hreads.bind (hn ▸ Parser.reads_text name)
  refine ⟨name, ?_⟩
  rw [customName, Reader.ofBytes, htext]

theorem reading_frame {id : SectionId} {payload bytes more : List UInt8}
    (h : FrameBy id payload bytes) {s : SectionReader} (hs : s.reader.rest = bytes ++ more) :
    ∃ offset position, reading frame s
      = .ok ⟨id, offset, payload⟩ { s with reader := ⟨position, more⟩ } := by
  obtain ⟨offset, hrun⟩ := frame_run h s.reader.position more
  refine ⟨offset, s.reader.position + bytes.length, ?_⟩
  rw [reading, onPart, show s.reader = ⟨s.reader.position, bytes ++ more⟩ by rw [← hs], hrun]

end SectionReader

/-- A frame is not empty. -/
theorem FrameBy.length_pos {id : SectionId} {payload bytes : List UInt8}
    (h : FrameBy id payload bytes) : 0 < bytes.length := by
  obtain ⟨-⟩ := h
  exact Nat.succ_pos _

namespace SectionReader

variable {s : SectionReader} {payload bytes more : List UInt8}

theorem nextWithin_end (hs : s.reader.rest = []) (room : Nat) :
    nextWithin room s = .ok none s := by
  cases room with
  | zero => rfl
  | succ room =>
    have hend : s.reader.atEnd = true := by rw [Reader.atEnd, hs]; rfl
    rw [nextWithin, bind_run]
    show (if s.reader.atEnd = true then _ else _ : Action SectionReader (Option Section)) s = _
    rw [if_pos hend]
    rfl

theorem not_atEnd {id : SectionId} (hframe : FrameBy id payload bytes)
    (hs : s.reader.rest = bytes ++ more) : ¬ s.reader.atEnd = true := by
  have hpos := hframe.length_pos
  rw [Reader.atEnd, hs, List.isEmpty_iff, ← List.length_eq_zero_iff, List.length_append]
  omega

/-- A custom section is stepped over. -/
theorem nextWithin_custom (hframe : FrameBy .custom payload bytes) (hpayload : CustomBy payload)
    (hs : s.reader.rest = bytes ++ more) (room : Nat) :
    ∃ position log, nextWithin (room + 1) s
      = nextWithin room ⟨⟨position, more⟩, s.lastOrder, log⟩ := by
  obtain ⟨offset, position, hrun⟩ := reading_frame hframe hs
  obtain ⟨name, hname⟩ := customName_ok hpayload
  refine ⟨position, s.log.push (.customSkipped name offset payload.length), ?_⟩
  rw [nextWithin, bind_run]
  show (if s.reader.atEnd = true then _ else _ : Action SectionReader (Option Section)) s = _
  rw [if_neg (not_atEnd hframe hs), bind_run, hrun]
  simp only [hname, if_true]
  rfl

/-- A section that comes after the ones before it is given. -/
theorem nextWithin_found {id : SectionId} (hframe : FrameBy id payload bytes) (hid : id ≠ .custom)
    (hlast : s.lastOrder < id.order) (hs : s.reader.rest = bytes ++ more) (room : Nat) :
    ∃ offset position log, nextWithin (room + 1) s
      = .ok (some ⟨id, offset, payload⟩) ⟨⟨position, more⟩, id.order, log⟩ := by
  obtain ⟨offset, position, hrun⟩ := reading_frame hframe hs
  refine ⟨offset, position, s.log.push (.sectionFound id offset payload.length), ?_⟩
  rw [nextWithin, bind_run]
  show (if s.reader.atEnd = true then _ else _ : Action SectionReader (Option Section)) s = _
  rw [if_neg (not_atEnd hframe hs), bind_run, hrun]
  simp only [if_neg hid]
  rw [bind_run]
  show (if id.order ≤ s.lastOrder then _ else _ : Action SectionReader (Option Section)) _ = _
  rw [if_neg (Nat.not_le.mpr hlast)]
  rfl

end SectionReader

/-! ### The next section -/

namespace Module

variable {m : Module} {ids : List SectionId} {bytes : List UInt8}

/-- There is no payload of a custom section among those that are written for a module. -/
theorem PayloadBy.ne_custom {id : SectionId} {payload : List UInt8} (h : m.PayloadBy id payload) :
    id ≠ .custom := by
  cases h <;> decide

/-- What a reader that stands before the sections of the kinds in `ids` is to find: the first that
was not left out, or none if all were. -/
def Next (m : Module) (ids : List SectionId) : Option Section → SectionReader → Prop
  | none, _ => ∀ id ∈ ids, m.Lacks id
  | some found, s => ∃ omitted others, ids = omitted ++ found.id :: others ∧
      (∀ id ∈ omitted, m.Lacks id) ∧ m.PayloadBy found.id found.payload ∧
      m.SectionsBy others s.reader.rest ∧ s.lastOrder = found.id.order

theorem Next.omitted {id : SectionId} {found? : Option Section} {s : SectionReader}
    (hlacks : m.Lacks id) (h : m.Next ids found? s) : m.Next (id :: ids) found? s := by
  cases found? with
  | none => exact List.forall_mem_cons.mpr ⟨hlacks, h⟩
  | some found =>
    obtain ⟨omitted, others, rfl, homitted, hpayload, hothers, horder⟩ := h
    exact ⟨id :: omitted, others, rfl, List.forall_mem_cons.mpr ⟨hlacks, homitted⟩, hpayload,
      hothers, horder⟩

/-- The reader steps over what was put in between and finds the next section, which leaves fewer
bytes. -/
theorem SectionsBy.next (h : m.SectionsBy ids bytes) {s : SectionReader}
    (hs : s.reader.rest = bytes) (hlast : ∀ id ∈ ids, s.lastOrder < id.order) {room : Nat}
    (hroom : bytes.length ≤ room) :
    ∃ found? s', SectionReader.nextWithin room s = .ok found? s' ∧ m.Next ids found? s' ∧
      (found? ≠ none → s'.reader.rest.length < bytes.length) := by
  induction h generalizing s room with
  | nil =>
    exact ⟨none, s, SectionReader.nextWithin_end hs room, by simp [Next], fun h => absurd rfl h⟩
  | @custom ids payload bytes more hpayload hframe _ ih =>
    have hpos := hframe.length_pos
    rw [List.length_append] at hroom
    obtain ⟨room, rfl⟩ : ∃ n, room = n + 1 := ⟨room - 1, by omega⟩
    obtain ⟨position, log, hskip⟩ := SectionReader.nextWithin_custom hframe hpayload hs room
    have hless : more.length ≤ room := by omega
    obtain ⟨found?, s', hrun, hnext, hlt⟩ :=
      ih (s := ⟨⟨position, more⟩, s.lastOrder, log⟩) rfl hlast hless
    refine ⟨found?, s', hskip.trans hrun, hnext, fun h => ?_⟩
    have hfewer := hlt h
    rw [List.length_append]
    omega
  | @omitted id ids bytes hlacks _ ih =>
    obtain ⟨found?, s', hrun, hnext, hlt⟩ :=
      ih hs (fun id hid => hlast id (List.mem_cons_of_mem _ hid)) hroom
    exact ⟨found?, s', hrun, hnext.omitted hlacks, hlt⟩
  | @written id ids payload bytes more hpayload hframe hmore _ =>
    have hpos := hframe.length_pos
    rw [List.length_append] at hroom
    obtain ⟨room, rfl⟩ : ∃ n, room = n + 1 := ⟨room - 1, by omega⟩
    obtain ⟨offset, position, log, hrun⟩ := SectionReader.nextWithin_found hframe
      hpayload.ne_custom (hlast id List.mem_cons_self) hs room
    refine ⟨_, _, hrun, ⟨[], ids, rfl, by simp, hpayload, hmore, rfl⟩, fun _ => ?_⟩
    rw [List.length_append]
    show more.length < _
    omega

theorem toList_bindings_unbound (m : Module) :
    m.unbound.bindings.toList = List.replicate m.imports.length .unbound := by
  refine FixedVec.toList_putAll_empty ?_
  rw [List.length_replicate]
  exact m.imports.length_le

/-- Tables for which the module has nothing hold the same as when they were empty. -/
theorem Lacks.sameAt (hm : m.Regular) {id : SectionId} (h : m.Lacks id) {m₀ : Module}
    (hempty : Module.empty.SameAt m₀ id) : m.SameAt m₀ id := by
  cases id with
  | type => exact hempty.trans (congrArg _ (FixedVec.toList_eq_nil h).symm)
  | imports =>
    have hlength : m.imports.length = 0 := h
    refine ⟨hempty.1.trans (FixedVec.toList_eq_nil h).symm, ?_⟩
    rw [hlength]
    exact hempty.2
  | function => exact hempty.trans (FixedVec.toList_eq_nil h).symm
  | memory => exact hempty.trans (FixedVec.toList_eq_nil h).symm
  | global => exact hempty.trans (FixedVec.toList_eq_nil h).symm
  | exports => exact hempty.trans (FixedVec.toList_eq_nil h).symm
  | start => exact hempty.trans h.symm
  | code =>
    have hcodes : m.codes.toList = [] := FixedVec.toList_eq_nil h
    have htiles := hm.wellFormed.bodies
    rw [show m.unbound.codes.toList = [] from hcodes] at htiles
    have hpool : 0 = m.instructions.toList.length := htiles
    refine ⟨hempty.1.trans (congrArg _ hcodes.symm), hempty.2.trans ?_⟩
    exact (List.eq_nil_of_length_eq_zero hpool.symm).symm
  | data => exact hempty.trans (FixedVec.toList_eq_nil h).symm
  | dataCount => exact hempty.trans h.symm
  | custom => trivial
  | table => trivial
  | element => trivial

end Module

/-! ### The loop over sections -/

namespace Decoding

variable {m : Module}

/-- The sections of the kinds in `ids` are still to be read, the others were. -/
structure Awaits (m : Module) (ids : List SectionId) (d : Decoding) : Prop where
  sections : m.SectionsBy ids d.sections.reader.rest
  sorted : ids.Pairwise fun id other => id.order < other.order
  lastOrder_lt : ∀ id ∈ ids, d.sections.lastOrder < id.order
  empty : ∀ id ∈ ids, Module.empty.SameAt d.module id
  filled : ∀ id, id ∉ ids → m.SameAt d.module id

/-- When all sections that are still to be read were left out, all tables are filled. -/
theorem Awaits.sameAt (hm : m.Regular) {ids : List SectionId} {d : Decoding} (h : Awaits m ids d)
    (hlacks : ∀ id ∈ ids, m.Lacks id) (id : SectionId) : m.SameAt d.module id := by
  by_cases hid : id ∈ ids
  · exact (hlacks id hid).sameAt hm (h.empty id hid)
  · exact h.filled id hid

theorem contents_run {found : Section} {d : Decoding} {m' : Module}
    (h : Draft.Builds (Draft.contents found.id) found.payload d.module m') :
    ∃ position, contents found d = .ok ⟨position, []⟩ { d with module := m' } := by
  have hrun := h 0 []
  rw [List.append_nil] at hrun
  refine ⟨0 + found.payload.length, ?_⟩
  rw [contents, onPart, Reader.ofBytes, bind_run, hrun]
  rfl

theorem decodeSection_run {found : Section} {d : Decoding} {m' : Module}
    (h : Draft.Builds (Draft.contents found.id) found.payload d.module m') :
    ∃ d', decodeSection found d = .ok () d' ∧ d'.module = m' ∧
      d'.sections.reader = d.sections.reader ∧ d'.sections.lastOrder = d.sections.lastOrder := by
  obtain ⟨position, hrun⟩ := contents_run (d := { d with
    sawData := d.sawData || found.id = .data }) h
  refine ⟨⟨{ d.sections with log := d.sections.log.push (.sectionDecoded found.id) }, m',
    d.sawData || found.id = .data⟩, ?_, rfl, rfl, rfl⟩
  rw [decodeSection, bind_run]
  show (contents found >>= fun _ => _) _ = _
  rw [bind_run, hrun]
  rfl

/-- A section that is found is read into its tables. -/
theorem Awaits.next (hm : m.Regular) {ids : List SectionId} {d : Decoding} (h : Awaits m ids d)
    {found : Section} {s : SectionReader} (hnext : m.Next ids (some found) s) :
    ∃ others d', decodeSection found { d with sections := s } = .ok () d' ∧ Awaits m others d' ∧
      d'.sections.reader = s.reader := by
  obtain ⟨omitted, others, rfl, homitted, hpayload, hothers, horder⟩ := hnext
  obtain ⟨-, hsorted, hbetween⟩ := List.pairwise_append.mp h.sorted
  obtain ⟨hafter, hsorted⟩ := List.pairwise_cons.mp hsorted
  -- all sections before this one were read or left out
  have hdone (id : SectionId) (hid : id ≠ found.id) (hother : id ∉ others) :
      m.SameAt d.module id := by
    by_cases hin : id ∈ omitted
    · exact (homitted id hin).sameAt hm (h.empty id (List.mem_append_left _ hin))
    · refine h.filled id fun hmem => ?_
      simp [hin, hid, hother] at hmem
  have hbefore (id : SectionId) (hlt : id.order < found.id.order) : m.SameAt d.module id := by
    refine hdone id (fun heq => ?_) fun hmem => ?_
    · rw [heq] at hlt
      omega
    · have := hafter id hmem
      omega
  obtain ⟨m', hbuilds, hsame⟩ := Draft.builds_contents hm hpayload hbefore
    (h.empty found.id (by simp))
  have htouches : m'.without found.id = d.module.without found.id :=
    ((Draft.contents_touches found.id) ⟨⟨0, found.payload ++ []⟩, d.module⟩).of_ok (hbuilds 0 [])
  obtain ⟨d', hrun, rfl, hreader, hlast⟩ :=
    decodeSection_run (d := { d with sections := s }) hbuilds
  have hne (id : SectionId) (hid : id ∈ others) : id ≠ found.id := by
    rintro rfl
    exact absurd (hafter _ hid) (Nat.lt_irrefl _)
  refine ⟨others, d', hrun, ⟨?_, hsorted, fun id hid => ?_, fun id hid => ?_, fun id hid => ?_⟩,
    hreader⟩
  · rw [hreader]
    exact hothers
  · rw [hlast, show ({ d with sections := s } : Decoding).sections.lastOrder = _ from horder]
    exact hafter id hid
  · exact (h.empty id (by simp [hid])).of_without (hne id hid) htouches
  · by_cases hfound : id = found.id
    · rw [hfound]
      exact hsame
    · exact (hdone id hfound hid).of_without hfound htouches

theorem nextSection_run {found? : Option Section} {d : Decoding} {s : SectionReader}
    (h : SectionReader.nextWithin d.sections.reader.rest.length d.sections = .ok found? s) :
    nextSection? d = .ok found? { d with sections := s } := by
  have hnext : SectionReader.next? d.sections = .ok found? s := h
  rw [nextSection?, onPart, hnext]

/-- With room for as many sections as there are bytes, all are read. -/
theorem decodeSections_run (hm : m.Regular) (room : Nat) {ids : List SectionId} {d : Decoding}
    (h : Awaits m ids d) (hroom : d.sections.reader.rest.length ≤ room) :
    ∃ d', decodeSections room d = .ok () d' ∧ ∀ id, m.SameAt d'.module id := by
  induction room generalizing ids d with
  | zero =>
    -- there are no bytes left, so all other sections were left out
    have hend : d.sections.reader.rest = [] := List.eq_nil_of_length_eq_zero (by omega)
    obtain ⟨found?, s, hrun, hnext, -⟩ := h.sections.next rfl h.lastOrder_lt (Nat.le_refl _)
    rw [SectionReader.nextWithin_end hend] at hrun
    cases hrun
    exact ⟨d, rfl, h.sameAt hm hnext⟩
  | succ room ih =>
    obtain ⟨found?, s, hrun, hnext, hlt⟩ := h.sections.next rfl h.lastOrder_lt (Nat.le_refl _)
    rw [decodeSections, bind_run, nextSection_run hrun]
    cases found? with
    | none => exact ⟨{ d with sections := s }, rfl, h.sameAt hm hnext⟩
    | some found =>
      obtain ⟨others, d', hsection, hawaits, hreader⟩ := h.next hm hnext
      have hless := hlt (Option.some_ne_none _)
      obtain ⟨d'', hothers, hsame⟩ := ih hawaits (by rw [hreader]; omega)
      refine ⟨d'', ?_, hsame⟩
      simp only
      rw [bind_run, hsection]
      exact hothers

end Decoding

/-! ### The whole module -/

namespace Module

variable {m m' : Module}

theorem spaceOf_eq (h : ∀ id, m.SameAt m' id) (desc : ExportDesc) :
    m'.spaceOf desc = m.spaceOf desc := by
  have himports (α : Type) (select : ImportDesc → Option α) :
      m'.countImports select = m.countImports select := by
    rw [countImports, (h .imports).1]
    rfl
  have hfunctions : m'.functions.length = m.functions.length :=
    FixedVec.length_eq_of_toList (h .function)
  have hmemories : m'.memories.length = m.memories.length :=
    FixedVec.length_eq_of_toList (h .memory)
  have hglobals : m'.globals.length = m.globals.length := FixedVec.length_eq_of_toList (h .global)
  cases desc <;> simp only [spaceOf, importedFunctionCount, importedTableCount,
    importedMemoryCount, importedGlobalCount, himports, hfunctions, hmemories, hglobals]

theorem countP_name_le {exports : List Export} (h : (exports.map Export.name).Nodup)
    (name : String) : exports.countP (fun other => other.name == name) ≤ 1 := by
  have hcount := List.nodup_iff_count.mp h name
  rwa [List.count, List.countP_map] at hcount

/-- What the sections owe each other is paid when all tables are filled. -/
theorem agreementFault?_eq_none (hm : m.Regular) (h : ∀ id, m.SameAt m' id) {sawData : Bool}
    (hdata : sawData = false → m'.data.length = 0) : m'.agreementFault? sawData = none := by
  have hcodes : m'.codes.length = m'.functions.length := by
    rw [FixedVec.length_eq_of_map (h .code).1, FixedVec.length_eq_of_toList (h .function)]
    exact hm.wellFormed.codes_length
  have hannounced : ¬ (!sawData && m'.dataCount.any (· ≠ 0)) = true := by
    rw [show m'.dataCount = m.dataCount from h .dataCount]
    cases hcount : m.dataCount with
    | none => simp
    | some count =>
      have hlength : count.toNat = m'.data.length :=
        (hm.wellFormed.dataCount_eq count hcount).trans
          (FixedVec.length_eq_of_toList (h .data)).symm
      cases hsaw : sawData with
      | true => simp
      | false =>
        rw [hdata hsaw] at hlength
        simpa using UInt32.toNat_inj.mp hlength
  have hstart : ¬ (m'.start.any fun index => m'.functionCount ≤ index.toNat) = true := by
    rw [show m'.start = m.start from h .start,
      show m'.functionCount = m.unbound.functionCount from spaceOf_eq h (.function 0)]
    cases hindex : m.start with
    | none => simp
    | some index => simpa using hm.wellFormed.start_lt index hindex
  rw [agreementFault?, if_neg (not_not_intro hcodes), if_neg hannounced, if_neg hstart,
    List.findSome?_eq_none_iff]
  intro entry hentry
  rw [show m'.exports.toList = m.exports.toList from h .exports] at hentry
  have hhas : m'.hasExported entry.desc = true := by
    rw [hasExported_iff, spaceOf_eq h]
    exact hm.wellFormed.exports_lt entry hentry
  have hone := countP_name_le hm.wellFormed.exports_nodup entry.name
  rw [show m.unbound.exports.toList = m'.exports.toList from (h .exports).symm] at hone
  rw [exportFault?, if_neg (by simp [hhas]), if_neg (by omega)]

theorem same_of_sameAt (h : ∀ id, m.SameAt m' id) : m.unbound.Same m' where
  types := (h .type).symm
  imports := (h .imports).1.symm
  functions := (h .function).symm
  memories := (h .memory).symm
  globals := (h .global).symm
  exports := (h .exports).symm
  start := (h .start).symm
  codes := (h .code).1.symm
  data := (h .data).symm
  dataCount := (h .dataCount).symm
  instructions := (h .code).2.symm
  bindings := m.toList_bindings_unbound.trans (h .imports).2.symm

/-- Before the first section all of them are still to be read. -/
theorem awaits_canonical {sections : List UInt8} (h : m.SectionsBy canonical sections) (n : Nat) :
    Decoding.Awaits m canonical ⟨⟨⟨n, sections⟩, 0, #[]⟩, .empty, false⟩ where
  sections := h
  sorted := by decide
  lastOrder_lt := show ∀ id ∈ canonical, 0 < id.order by decide
  empty id _ := by cases id <;> first | exact rfl | exact ⟨rfl, rfl⟩ | trivial
  filled id hid := by cases id <;> first | exact absurd (by decide) hid | trivial

theorem decodeAll_run (hm : m.Regular) {sections : List UInt8}
    (h : m.SectionsBy canonical sections) (n : Nat) :
    ∃ d, Decoding.decodeAll ⟨⟨⟨n, sections⟩, 0, #[]⟩, .empty, false⟩ = .ok () d ∧
      ∀ id, m.SameAt d.module id := by
  obtain ⟨d, hrun, hsame⟩ := Decoding.decodeSections_run hm sections.length
    (awaits_canonical h n) (Nat.le_refl _)
  -- if there was no section of data, there are none
  obtain ⟨lastOrder, hsound⟩ := (Decoding.sound_invariant.decodeSections_ends _ _
    (sound_start ⟨⟨n, sections⟩, 0, #[]⟩)).of_ok hrun
  refine ⟨d, ?_, hsame⟩
  rw [Decoding.decodeAll, bind_run]
  show (Decoding.decodeSections sections.length >>= fun _ => _) _ = _
  rw [bind_run, hrun]
  simp only
  rw [bind_run, get_run]
  simp only [agreementFault?_eq_none hm hsame hsound.empty]
  rfl

/-- Whatever bytes are chosen to encode a module, they decode, and to the same module but for the
bindings, which are gone: padded integers, empty sections, custom sections and the labels of branch
tables make no difference. -/
theorem decodes_encoding (hm : m.Regular) {bytes : List UInt8} (h : m.EncodedBy bytes) :
    ∃ m', Module.ofBytes bytes = .ok m' ∧ m.unbound.Same m' := by
  obtain ⟨hsections⟩ := h
  rename_i sections
  obtain ⟨d, hrun, hsame⟩ := decodeAll_run hm hsections 8
  refine ⟨d.module, ?_, same_of_sameAt hsame⟩
  have hheader : SectionReader.ofBytes
      ([0x00, 0x61, 0x73, 0x6D, 0x01, 0x00, 0x00, 0x00] ++ sections)
        = .ok ⟨⟨8, sections⟩, 0, #[]⟩ := rfl
  rw [ofBytes, Assembly.decode]
  simp only [hheader, Module.clear_eq_empty]
  rw [hrun]

/-- A block around a branch table. -/
def branchingBody : List Instruction :=
  [⟨.block, .block .empty, .u32 2⟩, ⟨.const .i32, .i32 (BitVec.ofInt 32 (-1)), .none⟩,
    ⟨.brTable, .u32 1, .u32 0⟩, ⟨.endBlock, .none, .none⟩, ⟨.endBlock, .none, .none⟩]

def branchingCode : Code :=
  { locals := FixedVec.empty.putAll [⟨1, .i32⟩], numLocals := 1, length := 5, size := 14 }

/-- A module that imports a function and exports another, which has this body. -/
def branching : Module where
  types := FixedVec.empty.putAll [{}]
  imports := FixedVec.empty.putAll [⟨"env", "log", .function 0⟩]
  functions := FixedVec.empty.putAll [0]
  exports := FixedVec.empty.putAll [⟨"run", .function 1⟩]
  codes := FixedVec.empty.putAll [branchingCode]
  instructions := FixedVec.empty.putAll branchingBody

/-- The module with a custom section in front, padded numbers and an empty section of tables. -/
def branchingBytes : List UInt8 :=
  [0x00, 0x61, 0x73, 0x6D, 0x01, 0x00, 0x00, 0x00] ++
  ([0x00, 0x03, 0x01, 0x78, 0xFF] ++
  ([0x01, 0x84, 0x00, 0x01, 0x60, 0x00, 0x00] ++
  ([0x02, 0x0B, 0x01, 0x03, 0x65, 0x6E, 0x76, 0x03, 0x6C, 0x6F, 0x67, 0x00, 0x00] ++
  ([0x03, 0x02, 0x01, 0x00] ++
  ([0x04, 0x01, 0x00] ++
  ([0x07, 0x07, 0x01, 0x03, 0x72, 0x75, 0x6E, 0x00, 0x01] ++
  ([0x0A, 0x11, 0x01, 0x8E, 0x00, 0x01, 0x01, 0x7F, 0x02, 0x40, 0x41, 0xFF, 0x7F, 0x0E, 0x01, 0x00,
    0x00, 0x0B, 0x0B] ++ [])))))))

theorem toList_branching :
    branching.types.toList = [{}] ∧ branching.imports.toList = [⟨"env", "log", .function 0⟩] ∧
      branching.functions.toList = [0] ∧ branching.exports.toList = [⟨"run", .function 1⟩] ∧
      branching.codes.toList = [branchingCode] ∧
      branching.instructions.toList = branchingBody := by
  refine ⟨?_, ?_, ?_, ?_, ?_, ?_⟩ <;> exact FixedVec.toList_putAll_empty (by decide)

theorem isBody_branching : IsBody branchingBody := by
  refine @IsBody.mk (branchingBody.take 4) ⟨.endBlock, .none, .none⟩ ?_ rfl
  refine @Balanced.block 31 _ ⟨.endBlock, .none, .none⟩ ((branchingBody.drop 1).take 2) [] rfl rfl
    rfl ?_ .nil
  exact .plain rfl (by decide) (.plain rfl (by decide) .nil)

theorem body_branching : branching.body branchingCode = .ok branchingBody := by
  obtain ⟨-, -, -, -, -, hinstructions⟩ := toList_branching
  have hlength : branching.instructions.length = 5 := by
    rw [← FixedVec.length_toList, hinstructions]
    rfl
  simp only [body]
  rw [hlength, if_pos (by decide), FixedVec.toList_slice, hinstructions]
  rfl

theorem branching_wellFormed : branching.unbound.WellFormed := by
  obtain ⟨-, himports, hfunctions, hexports, hcodes, hinstructions⟩ := toList_branching
  exact {
    bindings := toList_bindings_unbound branching
    functions := by
      rw [show branching.unbound.functions.toList = _ from hfunctions, List.forall_mem_singleton]
      decide
    imports := by
      rw [show branching.unbound.imports.toList = _ from himports, List.forall_mem_singleton]
      exact .of_typeIndex rfl (by decide) rfl
    memories := fun limits h => by cases h
    globals := fun entry h => by cases h
    codes := by
      rw [show branching.unbound.codes.toList = _ from hcodes, List.forall_mem_singleton]
      exact ⟨rfl, by decide⟩
    bodies := by
      rw [show branching.unbound.codes.toList = _ from hcodes,
        show branching.unbound.instructions.toList = _ from hinstructions]
      exact ⟨rfl, by decide, ⟨_, rfl, rfl⟩, rfl⟩
    codes_length := rfl
    start_lt := fun index h => by cases h
    exports_lt := by
      rw [show branching.unbound.exports.toList = _ from hexports, List.forall_mem_singleton]
      decide
    exports_nodup := by
      rw [show branching.unbound.exports.toList = _ from hexports]
      decide
    dataCount_eq := fun count h => by cases h }

theorem branching_regular : branching.Regular := by
  obtain ⟨-, himports, -, hexports, hcodes, -⟩ := toList_branching
  exact {
    wellFormed := branching_wellFormed
    importNames := by
      rw [himports]
      decide
    exportNames := by
      rw [hexports]
      decide
    tables := by
      rw [himports, List.forall_mem_singleton]
      exact fun limits max h => by cases h
    memories := fun _ => rfl
    bodies := by
      rw [hcodes, List.forall_mem_singleton]
      intro instructions h
      rw [body_branching] at h
      cases h
      exact isBody_branching }

/-- A number below 128 in one byte. -/
theorem unsigned_byte {n : Nat} {b : UInt8} (hb : b.toNat = n) (hlast : n < 128) :
    Leb128.Unsigned 32 n [b] := by
  subst hb
  exact .last hlast (Nat.lt_trans hlast (by decide))

/-- And in two, the second of which adds nothing. -/
theorem unsigned_padded {n : Nat} {b : UInt8} (hb : b.toNat = n + 128) :
    Leb128.Unsigned 32 n [b, 0x00] := by
  have hzero : Leb128.Unsigned 25 0 [0x00] := @Leb128.Unsigned.last 25 0x00 (by decide) (by decide)
  have hmore : Leb128.Unsigned 32 (b.toNat - 128 + 128 * 0) [b, 0x00] :=
    .more (by omega) (by decide) hzero
  rwa [hb, Nat.add_sub_cancel, Nat.mul_zero, Nat.add_zero] at hmore

theorem branchingBody_encoded : EachBy Instruction.EncodedBy branchingBody
    ([0x02, 0x40] ++ ([0x41, 0xFF, 0x7F] ++ ([0x0E, 0x01, 0x00, 0x00] ++ ([0x0B] ++
      ([0x0B] ++ []))))) := by
  have hone : Leb128.Unsigned 32 1 [0x01] := unsigned_byte rfl (by decide)
  have hzero : Leb128.Unsigned 32 0 [0x00] := unsigned_byte rfl (by decide)
  have hsign : Leb128.Signed 25 (-1) [0x7F] :=
    @Leb128.Signed.neg 25 0x7F (by decide) (by decide) (by decide)
  have hminus : Leb128.Signed 32 (BitVec.ofInt 32 (-1)).toInt [0xFF, 0x7F] := by
    have hmore := @Leb128.Signed.more 32 (-1) 0xFF [0x7F] (by decide) (by decide) hsign
    rwa [show ((0xFF : UInt8).toNat - 128 + 128 * -1 : Int)
      = (BitVec.ofInt 32 (-1)).toInt by decide +kernel] at hmore
  have hlabels : VectorBy IndexBy [0] ([0x01] ++ ([0x00] ++ [])) :=
    .mk hone (.cons (.mk hzero) .nil)
  have hend : Instruction.EncodedBy ⟨.endBlock, .none, .none⟩ [0x0B] :=
    .mk (.byte (by decide)) .none
  refine .cons ?_ (.cons ?_ (.cons ?_ (.cons hend (.cons hend .nil))))
  · exact .mk (.byte (by decide)) (.block 2 .empty)
  · exact .mk (.byte (by decide)) (.i32 hminus)
  · exact .mk (.byte (by decide)) (.brTable rfl hlabels hzero)

theorem branchingCode_encoded : branchingCode.EncodedBy branching
    ([0x8E, 0x00] ++ (([0x01] ++ ([0x01, 0x7F] ++ [])) ++ ([0x02, 0x40] ++ ([0x41, 0xFF, 0x7F] ++
      ([0x0E, 0x01, 0x00, 0x00] ++ ([0x0B] ++ ([0x0B] ++ []))))))) := by
  have hone : Leb128.Unsigned 32 1 [0x01] := unsigned_byte rfl (by decide)
  have hlocals : branchingCode.locals.toList = [⟨1, .i32⟩] :=
    FixedVec.toList_putAll_empty (by decide)
  refine .mk body_branching (unsigned_padded rfl) ?_ branchingBody_encoded rfl
  have hgroup : LocalGroup.EncodedBy ⟨1, .i32⟩ [0x01, 0x7F] :=
    @LocalGroup.EncodedBy.mk _ [0x01] hone
  rw [hlocals]
  exact .mk hone (.cons hgroup .nil)

/-- The bytes encode the module. -/
theorem branching_encoded : branching.EncodedBy branchingBytes := by
  obtain ⟨htypes, himports, hfunctions, hexports, hcodes, hinstructions⟩ := toList_branching
  have hzero : Leb128.Unsigned 32 0 [0x00] := unsigned_byte rfl (by decide)
  have hone : Leb128.Unsigned 32 1 [0x01] := unsigned_byte rfl (by decide)
  have hthree : Leb128.Unsigned 32 3 [0x03] := unsigned_byte rfl (by decide)
  have hcustom : CustomBy [0x01, 0x78, 0xFF] :=
    @CustomBy.mk "x" [0x01, 0x78] (@NameBy.mk "x" [0x01] hone) [0xFF]
  have hnothing : VectorBy ValueType.EncodedBy [] [0x00] := @VectorBy.mk _ _ [] [0x00] [] hzero .nil
  have hsignature : FunctionType.EncodedBy {} [0x60, 0x00, 0x00] :=
    @FunctionType.EncodedBy.mk {} _ _ hnothing hnothing
  have htype : branching.PayloadBy .type ([0x01] ++ ([0x60, 0x00, 0x00] ++ [])) := by
    refine .type ?_
    rw [htypes]
    exact .mk hone (.cons hsignature .nil)
  have henv : NameBy "env" [0x03, 0x65, 0x6E, 0x76] := @NameBy.mk "env" [0x03] hthree
  have hlog : NameBy "log" [0x03, 0x6C, 0x6F, 0x67] := @NameBy.mk "log" [0x03] hthree
  have himport : branching.PayloadBy .imports ([0x01] ++ (([0x03, 0x65, 0x6E, 0x76] ++
      ([0x03, 0x6C, 0x6F, 0x67] ++ [0x00, 0x00])) ++ [])) := by
    refine .imports ?_
    rw [himports]
    exact .mk hone (.cons (.mk henv hlog (.function hzero)) .nil)
  have hfunction : branching.PayloadBy .function ([0x01] ++ ([0x00] ++ [])) := by
    refine .function ?_
    rw [hfunctions]
    exact .mk hone (.cons (.mk hzero) .nil)
  have hrun : NameBy "run" [0x03, 0x72, 0x75, 0x6E] := @NameBy.mk "run" [0x03] hthree
  have hentry : Export.EncodedBy ⟨"run", .function 1⟩ ([0x03, 0x72, 0x75, 0x6E] ++ [0x00, 0x01]) :=
    .mk hrun hone
  have hexport : branching.PayloadBy .exports
      ([0x01] ++ (([0x03, 0x72, 0x75, 0x6E] ++ [0x00, 0x01]) ++ [])) := by
    refine .exports ?_
    rw [hexports]
    exact .mk hone (.cons hentry .nil)
  have hcode : branching.PayloadBy .code ([0x01] ++ (([0x8E, 0x00] ++ (([0x01] ++ ([0x01, 0x7F] ++
      [])) ++ ([0x02, 0x40] ++ ([0x41, 0xFF, 0x7F] ++ ([0x0E, 0x01, 0x00, 0x00] ++ ([0x0B] ++
        ([0x0B] ++ []))))))) ++ [])) := by
    refine .code ?_
    rw [hcodes]
    exact .mk hone (.cons branchingCode_encoded .nil)
  refine .mk (.custom hcustom (@FrameBy.mk _ _ [0x03] hthree)
    (.written htype (@FrameBy.mk _ _ [0x84, 0x00] (unsigned_padded rfl))
    (.written himport (@FrameBy.mk _ _ [0x0B] (unsigned_byte rfl (by decide)))
    (.written hfunction (@FrameBy.mk _ _ [0x02] (unsigned_byte rfl (by decide)))
    (.written (.table hzero) (@FrameBy.mk _ _ [0x01] hone) (.omitted rfl (.omitted rfl
    (.written hexport (@FrameBy.mk _ _ [0x07] (unsigned_byte rfl (by decide)))
    (.omitted rfl (.omitted trivial (.omitted rfl
    (.written hcode (@FrameBy.mk _ _ [0x11] (unsigned_byte rfl (by decide)))
    (.omitted rfl .nil)))))))))))))

theorem branching_decodes :
    branching.Regular ∧ branching.EncodedBy branchingBytes ∧
      ∃ m', Module.ofBytes branchingBytes = .ok m' ∧ branching.unbound.Same m' :=
  ⟨branching_regular, branching_encoded, decodes_encoding branching_regular branching_encoded⟩

end Module

end BoundedWasm
