import BoundedWasm.Proofs.Decode.Framing
import BoundedWasm.Proofs.Encoding.RoundTrip

/-!
# BoundedWasm.Proofs.Decode.Transparency — custom sections make no difference

Two loops read a module: the reader of sections steps over custom ones, and the decoder reads the
others into the module.  Both work frame by frame, and so the outcome of the two is one function of
the bytes, `Progress.read`, which knows neither positions nor logs (`decodeSections_read`).  It says
of a custom section that nothing changes; a section that is whole takes it from one state to the
next or to a fault, whatever follows.  So a custom section may be put in behind any number of whole
sections, and the outcome stays the same, for bytes that are a module and for bytes that are not.
-/

namespace BoundedWasm

open BoundedWasm.Action

/-! ### Frame by frame -/

/-- There is one kind of a number. -/
theorem SectionId.number_of_ofNumber? {n : Nat} {id : SectionId} (h : ofNumber? n = some id) :
    id.number = n := by
  have hall : ∀ k : Fin all.length, (all.get k).number = k := by decide
  obtain ⟨hlength, heq⟩ := List.getElem?_eq_some_iff.mp h
  rw [← heq]
  exact hall ⟨n, hlength⟩

namespace SectionReader

variable {bytes : List UInt8} {n : Nat} {r : Reader}

/-- What is read from a frame does not depend on where it stands. -/
theorem frame_ok_anywhere {found : Section} (h : frame ⟨n, bytes⟩ = .ok found r) (n' : Nat) :
    ∃ offset position,
      frame ⟨n', bytes⟩ = .ok ⟨found.id, offset, found.payload⟩ ⟨position, r.rest⟩ := by
  obtain ⟨fault, count, -, hrun⟩ | ⟨id, start, payload, -, -, -, hrun⟩ := frame_cases bytes
  · rw [hrun] at h
    cases h
  · rw [hrun] at h
    cases h
    exact ⟨_, _, hrun n'⟩

theorem frame_error_anywhere {fault : Fault} (h : frame ⟨n, bytes⟩ = .error fault r) (n' : Nat) :
    ∃ r', frame ⟨n', bytes⟩ = .error fault r' := by
  obtain ⟨fault, count, -, hrun⟩ | ⟨id, start, payload, -, -, -, hrun⟩ := frame_cases bytes
  · rw [hrun] at h
    cases h
    exact ⟨_, hrun n'⟩
  · rw [hrun] at h
    cases h

end SectionReader

/-- How far a module is decoded, without where its reader stands and what was logged. -/
structure Progress where
  module : Module
  lastOrder : Nat := 0
  sawData : Bool := false

namespace Progress

/-- The payload of a section is read into the module, to its end. -/
def fill (p : Progress) (id : SectionId) (payload : List UInt8) : Except Fault Progress :=
  match Draft.contents id ⟨.ofBytes payload, p.module⟩ with
  | .error fault _ => .error fault
  | .ok _ draft =>
    if draft.reader.atEnd then .ok ⟨draft.module, id.order, p.sawData || id = .data⟩
    else .error .sectionSizeMismatch

/-- A section of any kind; of a custom one the name is looked at. -/
def take (p : Progress) (id : SectionId) (payload : List UInt8) : Except Fault Progress :=
  if id = .custom then (SectionReader.customName payload).map fun _ => p
  else if id.order ≤ p.lastOrder then .error .sectionOrder
  else p.fill id payload

/-- There are no more sections. -/
def finish (p : Progress) : Except Fault Module :=
  match p.module.agreementFault? p.sawData with
  | some fault => .error fault
  | none => .ok p.module

/-- Frame after frame, to the end of the bytes. -/
def read (p : Progress) (bytes : List UInt8) : Except Fault Module :=
  if bytes = [] then p.finish
  else
    match _h : SectionReader.frame (.ofBytes bytes) with
    | .error fault _ => .error fault
    | .ok found r =>
      match p.take found.id found.payload with
      | .error fault => .error fault
      | .ok p' => p'.read r.rest
  termination_by bytes.length
  decreasing_by exact SectionReader.frame_rest_lt _h

variable (p : Progress) {bytes : List UInt8} {n : Nat} {r : Reader}

theorem read_nil : p.read [] = p.finish := by
  rw [read, if_pos rfl]

theorem read_of_error (hbytes : bytes ≠ []) {fault : Fault}
    (h : SectionReader.frame ⟨n, bytes⟩ = .error fault r) : p.read bytes = .error fault := by
  obtain ⟨r', hrun⟩ := SectionReader.frame_error_anywhere h 0
  rw [read, if_neg hbytes]
  split
  · rename_i heq
    cases heq.symm.trans hrun
    rfl
  · rename_i heq
    cases heq.symm.trans hrun

theorem read_of_ok {found : Section} (h : SectionReader.frame ⟨n, bytes⟩ = .ok found r) :
    p.read bytes = p.take found.id found.payload >>= fun p' => p'.read r.rest := by
  obtain ⟨offset, position, hrun⟩ := SectionReader.frame_ok_anywhere h 0
  have hbytes : bytes ≠ [] := by
    rintro rfl
    cases h
  rw [read, if_neg hbytes]
  split
  · rename_i heq
    cases heq.symm.trans hrun
  · rename_i heq
    cases heq.symm.trans hrun
    cases p.take found.id found.payload <;> rfl

end Progress

/-! ### The two loops -/

namespace SectionReader

variable {s t : SectionReader} {p : Progress}

/-- Custom sections that are stepped over leave the progress as it is. -/
theorem Skips.read (p : Progress) (h : Skips s t) :
    t.lastOrder = s.lastOrder ∧ t.reader.remaining ≤ s.reader.remaining ∧
      p.read s.reader.rest = p.read t.reader.rest := by
  induction h with
  | none s => exact ⟨rfl, Nat.le_refl _, rfl⟩
  | @custom s t found r name hframe hid hname _ ih =>
    obtain ⟨hlast, hless, hread⟩ := ih
    refine ⟨hlast, Nat.le_trans hless (Nat.le_of_lt (frame_rest_lt hframe)), ?_⟩
    rw [p.read_of_ok hframe, Progress.take, if_pos hid, hname]
    exact hread

/-- The call ends at a section, at the end of the bytes or at a fault; and so does reading frame by
frame. -/
theorem next?_read (hp : p.lastOrder = s.lastOrder) :
    next?.Ends s
      (fun found? s' => match found? with
        | none => p.read s.reader.rest = p.finish
        | some found => s'.reader.remaining < s.reader.remaining ∧
            s'.lastOrder = found.id.order ∧
            p.read s.reader.rest
              = p.fill found.id found.payload >>= fun p' => p'.read s'.reader.rest)
      (fun fault _ => p.read s.reader.rest = .error fault) := by
  unfold Ends
  generalize hend : next? s = ending
  cases next?_cases hend with
  | ended hskips hrest =>
    obtain ⟨-, -, hread⟩ := hskips.read p
    show p.read s.reader.rest = p.finish
    rw [hread, hrest, p.read_nil]
  | broken hskips hrest hframe =>
    obtain ⟨-, -, hread⟩ := hskips.read p
    exact hread.trans (p.read_of_error hrest hframe)
  | unnamed hskips hframe hid hname =>
    obtain ⟨-, -, hread⟩ := hskips.read p
    show p.read s.reader.rest = _
    rw [hread, p.read_of_ok hframe, Progress.take, if_pos hid, hname]
    rfl
  | disordered hskips hframe hid horder =>
    obtain ⟨hlast, -, hread⟩ := hskips.read p
    rw [hlast, ← hp] at horder
    show p.read s.reader.rest = _
    rw [hread, p.read_of_ok hframe, Progress.take, if_neg hid, if_pos horder]
    rfl
  | found hskips hframe hid horder =>
    obtain ⟨hlast, hless, hread⟩ := hskips.read p
    rw [hlast, ← hp] at horder
    refine ⟨Nat.lt_of_lt_of_le (frame_rest_lt hframe) hless, rfl, ?_⟩
    rw [hread, p.read_of_ok hframe, Progress.take, if_neg hid, if_neg (Nat.not_le.mpr horder)]

end SectionReader

namespace Decoding

def progress (d : Decoding) : Progress := ⟨d.module, d.sections.lastOrder, d.sawData⟩

/-- Where the section was found does not matter, nor the order of the last one. -/
theorem decodeSection_fill (found : Section) {d : Decoding}
    (hlast : d.sections.lastOrder = found.id.order) (lastOrder : Nat) :
    (decodeSection found).Ends d
      (fun _ d' => d'.sections.reader = d.sections.reader ∧
        (⟨d.module, lastOrder, d.sawData⟩ : Progress).fill found.id found.payload
          = .ok d'.progress)
      (fun fault _ => (⟨d.module, lastOrder, d.sawData⟩ : Progress).fill found.id found.payload
          = .error fault) := by
  unfold decodeSection
  rw [ends_bind, ends_modify, ends_bind, contents, ends_onPart, ends_bind]
  refine ends_of (fun _ draft hrun => ?_) (fun fault draft hrun => ?_)
  · rw [ends_bind, ends_get, ends_pure]
    have hfill : (⟨d.module, lastOrder, d.sawData⟩ : Progress).fill found.id found.payload
        = if draft.reader.atEnd then
            .ok ⟨draft.module, found.id.order, d.sawData || found.id = .data⟩
          else .error .sectionSizeMismatch := by
      rw [Progress.fill]
      simp only at hrun ⊢
      rw [hrun]
    rw [hfill]
    split
    · rename_i hend
      rw [if_neg (by simpa using hend)]
      rfl
    · rename_i hend
      rw [if_pos (by simpa using hend), ← hlast]
      exact ⟨rfl, rfl⟩
  · rw [Progress.fill]
    simp only at hrun ⊢
    rw [hrun]

/-- With room for as many sections as there are bytes, they are read frame by frame. -/
theorem decodeSections_read (room : Nat) {d : Decoding}
    (hroom : d.sections.reader.remaining ≤ room) :
    (decodeSections room).Ends d
      (fun _ d' => d.progress.read d.sections.reader.rest = d'.progress.finish)
      (fun fault _ => d.progress.read d.sections.reader.rest = .error fault) := by
  induction room generalizing d with
  | zero =>
    have hrest : d.sections.reader.rest = [] := List.length_eq_zero_iff.mp (Nat.le_zero.mp hroom)
    show d.progress.read d.sections.reader.rest = d.progress.finish
    rw [hrest, d.progress.read_nil]
  | succ room ih =>
    unfold decodeSections
    rw [ends_bind, nextSection?, ends_onPart]
    refine (SectionReader.next?_read (p := d.progress) rfl).mono ?_ fun _ _ h => h
    rintro (_ | found) s h
    · exact h
    · obtain ⟨hless, hlast, hread⟩ := h
      rw [hread, ends_bind]
      refine (decodeSection_fill found hlast d.sections.lastOrder).mono ?_ ?_
      · rintro _ d' ⟨hreader, hfill⟩
        have hroom' : d'.sections.reader.remaining ≤ room := by
          rw [hreader]
          exact Nat.le_of_lt_succ (Nat.lt_of_lt_of_le hless hroom)
        rw [show d.progress.fill found.id found.payload = .ok d'.progress from hfill]
        show (decodeSections room).Ends d'
          (fun _ d'' => d'.progress.read s.reader.rest = d''.progress.finish)
          (fun fault _ => d'.progress.read s.reader.rest = .error fault)
        rw [show s.reader = d'.sections.reader from hreader.symm]
        exact ih hroom'
      · intro fault _ hfill
        rw [show d.progress.fill found.id found.payload = .error fault from hfill]
        rfl

theorem decodeAll_read (d : Decoding) :
    decodeAll.Ends d
      (fun _ d' => d.progress.read d.sections.reader.rest = .ok d'.module)
      (fun fault _ => d.progress.read d.sections.reader.rest = .error fault) := by
  unfold decodeAll
  rw [ends_bind, ends_get, ends_bind]
  refine (decodeSections_read _ (Nat.le_refl _)).mono (fun _ d' hread => ?_) (fun _ _ h => h)
  rw [ends_bind, ends_get, hread, Progress.finish]
  show Ends (match d'.module.agreementFault? d'.sawData with
    | some fault => throw fault
    | none => pure ()) d' _ _
  simp only [progress]
  cases d'.module.agreementFault? d'.sawData <;> rfl

end Decoding

namespace Module

/-- The four bytes that begin every module, and the version. -/
def header : List UInt8 := [0x00, 0x61, 0x73, 0x6D, 0x01, 0x00, 0x00, 0x00]

/-- What stands behind the header is read frame by frame, from an empty module on. -/
theorem ofBytes_eq_read (sections : List UInt8) :
    ofBytes (header ++ sections) = (⟨.empty, 0, false⟩ : Progress).read sections := by
  have hstart : SectionReader.ofBytes (header ++ sections) = .ok ⟨⟨8, sections⟩, 0, #[]⟩ := rfl
  rw [ofBytes, Assembly.decode]
  simp only [hstart, clear_eq_empty]
  have hall := Decoding.decodeAll_read ⟨⟨⟨8, sections⟩, 0, #[]⟩, .empty, false⟩
  cases hrun : Decoding.decodeAll ⟨⟨⟨8, sections⟩, 0, #[]⟩, .empty, false⟩ with
  | ok _ d => exact (hall.of_ok hrun).symm
  | error fault d => exact (hall.of_error hrun).symm

end Module

/-! ### Whole sections -/

/-- Whole sections, one after the other.  Nothing is said about their kinds and payloads; there need
not even be a kind of this number. -/
inductive Frames : List UInt8 → Prop
  | nil : Frames []
  | cons {number : UInt8} {size payload more : List UInt8}
    (hsize : Leb128.Unsigned 32 payload.length size) (h : Frames more) :
    Frames (number :: (size ++ (payload ++ more)))

namespace Progress

/-- A whole section leads from one progress to the next, or to a fault; what follows plays no part
in it. -/
theorem read_frame {number : UInt8} {size payload : List UInt8}
    (hsize : Leb128.Unsigned 32 payload.length size) (p : Progress) :
    ∃ taken : Except Fault Progress, ∀ rest,
      p.read (number :: (size ++ (payload ++ rest))) = taken >>= fun p' => p'.read rest := by
  cases hid : SectionId.ofNumber? number.toNat with
  | none =>
    exact ⟨.error .unknownSection, fun rest =>
      p.read_of_error (List.cons_ne_nil _ _) (SectionReader.frame_unknown hid 0 _)⟩
  | some id =>
    have hnumber : number = UInt8.ofNat id.number := by
      rw [SectionId.number_of_ofNumber? hid, UInt8.ofNat_toNat]
    have hframe : FrameBy id payload (number :: (size ++ payload)) := by
      rw [hnumber]
      exact .mk hsize
    refine ⟨p.take id payload, fun rest => ?_⟩
    obtain ⟨offset, hrun⟩ := SectionReader.frame_run hframe 0 rest
    rw [List.cons_append, List.append_assoc] at hrun
    exact p.read_of_ok hrun

theorem read_custom {payload custom : List UInt8} (hpayload : CustomBy payload)
    (hframe : FrameBy .custom payload custom) (p : Progress) (rest : List UInt8) :
    p.read (custom ++ rest) = p.read rest := by
  obtain ⟨offset, hrun⟩ := SectionReader.frame_run hframe 0 rest
  obtain ⟨name, hname⟩ := SectionReader.customName_ok hpayload
  rw [p.read_of_ok hrun, take, if_pos rfl, hname]
  rfl

theorem read_insert {before payload custom : List UInt8} (hbefore : Frames before)
    (hpayload : CustomBy payload) (hframe : FrameBy .custom payload custom) (p : Progress)
    (after : List UInt8) :
    p.read (before ++ (custom ++ after)) = p.read (before ++ after) := by
  induction hbefore generalizing p with
  | nil => exact read_custom hpayload hframe p after
  | cons hsize h ih =>
    rename_i number size payload' more
    obtain ⟨taken, htaken⟩ := @read_frame number _ _ hsize p
    simp only [List.cons_append, List.append_assoc]
    rw [htaken, htaken]
    cases taken with
    | error fault => rfl
    | ok p' => exact ih p'

end Progress

namespace Module

/-- Behind any number of whole sections, and in front of anything, a custom section with a name
makes no difference to the module or the fault that the bytes give. -/
theorem ofBytes_insert_custom {before payload custom : List UInt8} (hbefore : Frames before)
    (hpayload : CustomBy payload) (hframe : FrameBy .custom payload custom)
    (after : List UInt8) :
    ofBytes (header ++ before ++ custom ++ after) = ofBytes (header ++ before ++ after) := by
  simp only [List.append_assoc]
  rw [ofBytes_eq_read, ofBytes_eq_read]
  exact Progress.read_insert hbefore hpayload hframe _ after

/-- A custom section behind the types of a module. -/
theorem adder_insert_custom :
    Frames ((adderBytes.drop 8).take 12) ∧ CustomBy [0x01, 0x78, 0xFF] ∧
      FrameBy .custom [0x01, 0x78, 0xFF] [0x00, 0x03, 0x01, 0x78, 0xFF] ∧
      ∃ m, ofBytes (header ++ (adderBytes.drop 8).take 12 ++ [0x00, 0x03, 0x01, 0x78, 0xFF] ++
        adderBytes.drop 20) = .ok m ∧ ofBytes adderBytes = .ok m := by
  have hbefore : Frames ((adderBytes.drop 8).take 12) :=
    @Frames.cons 0x01 [0x0A] [0x02, 0x60, 0x00, 0x01, 0x7F, 0x60, 0x01, 0x7F, 0x01, 0x7F] []
      (unsigned_byte rfl (by decide)) .nil
  have hpayload : CustomBy [0x01, 0x78, 0xFF] :=
    @CustomBy.mk "x" [0x01, 0x78] (@NameBy.mk "x" [0x01] (unsigned_byte rfl (by decide))) [0xFF]
  have hframe : FrameBy .custom [0x01, 0x78, 0xFF] [0x00, 0x03, 0x01, 0x78, 0xFF] :=
    @FrameBy.mk .custom [0x01, 0x78, 0xFF] [0x03] (unsigned_byte rfl (by decide))
  obtain ⟨m, hm⟩ := adder_decodes
  refine ⟨hbefore, hpayload, hframe, m, ?_, hm⟩
  rw [ofBytes_insert_custom hbefore hpayload hframe]
  exact hm

end Module

end BoundedWasm
