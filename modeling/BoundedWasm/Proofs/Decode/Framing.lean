import BoundedWasm.Proofs.Encoding.Grammar
import BoundedWasm.Proofs.Reader.Advance
import BoundedWasm.Section

/-!
# BoundedWasm.Proofs.Decode.Framing — the sections that a reader gives lie in its bytes, in order

Whatever bytes a reader of sections was made for, and however often it is asked for the next one,
also after it failed, it moves forward and stays in the bytes.  What it gives are stretches of the
bytes, one behind the other, and their kinds come in the order of kinds; it says that there are no
more only at the end.  `SectionReader.NextCall` lists the ends of one call, which moves the reader
in this way (`next?_moves`); the statement about any number of calls follows along the readers that
they leave (`SectionReader.afterCalls`).
-/

namespace BoundedWasm

open BoundedWasm.Action

/-- A stretch of the bytes, from its offset on. -/
structure Section.LiesIn (bytes : List UInt8) (found : Section) : Prop where
  stop_le : found.offset + found.payload.length ≤ bytes.length
  payload_eq : found.payload = (bytes.drop found.offset).take found.payload.length

namespace SectionReader

/-! ### One frame -/

theorem frame_unknown {number : UInt8} (h : SectionId.ofNumber? number.toNat = none)
    (position : Nat) (rest : List UInt8) :
    frame ⟨position, number :: rest⟩ = .error .unknownSection ⟨position + 1, rest⟩ := by
  rw [frame, bind_run, show Parser.byte ⟨position, number :: rest⟩
    = .ok number ⟨position + 1, rest⟩ from rfl]
  simp only [h]
  rfl

/-- Behind the number of a kind stand the size and the payload. -/
theorem frame_known {number : UInt8} {id : SectionId}
    (h : SectionId.ofNumber? number.toNat = some id) (position : Nat) (rest : List UInt8) :
    frame ⟨position, number :: rest⟩
      = (do
          let size ← Parser.uleb32
          let offset := (← get).position
          let payload ← Parser.bytes size.toNat
          return ⟨id, offset, payload⟩ : Parser Section) ⟨position + 1, rest⟩ := by
  rw [frame, bind_run, show Parser.byte ⟨position, number :: rest⟩
    = .ok number ⟨position + 1, rest⟩ from rfl]
  simp only [h]

/-- A frame is read, or reading it fails; in both cases the bytes ahead settle how far the reader
moves. -/
theorem frame_cases (rest : List UInt8) :
    (∃ fault count, count ≤ rest.length ∧
      ∀ position, frame ⟨position, rest⟩
        = .error fault ((⟨position, rest⟩ : Reader).advance count)) ∨
    ∃ id start payload, 0 < start ∧ start + payload.length ≤ rest.length ∧
      payload = (rest.drop start).take payload.length ∧
      ∀ position, frame ⟨position, rest⟩ = .ok ⟨id, position + start, payload⟩
        ((⟨position, rest⟩ : Reader).advance (start + payload.length)) := by
  cases rest with
  | nil => exact .inl ⟨.unexpectedEnd, 0, Nat.zero_le _, fun _ => rfl⟩
  | cons number rest =>
    cases hid : SectionId.ofNumber? number.toNat with
    | none =>
      exact .inl ⟨.unknownSection, 1, by simp, fun position => frame_unknown hid position rest⟩
    | some id =>
      obtain ⟨outcome, count, hcount, hsize⟩ := Parser.advances_uleb32 rest
      cases outcome with
      | error fault =>
        refine .inl ⟨fault, 1 + count, by simp; omega, fun position => ?_⟩
        rw [frame_known hid, bind_run, hsize, ← Reader.advance_advance]
        rfl
      | ok size =>
        -- what follows the size is as long as it says, or the bytes end before
        have hframe (position : Nat) : frame ⟨position, number :: rest⟩
            = (Parser.bytes size.toNat >>= fun payload =>
                pure (⟨id, position + (1 + count), payload⟩ : Section))
              ⟨position + (1 + count), rest.drop count⟩ := by
          rw [frame_known hid, bind_run, hsize, ← Nat.add_assoc]
          rfl
        have hdrop : (number :: rest).drop (1 + count) = rest.drop count := by
          rw [Nat.add_comm, List.drop_succ_cons]
        by_cases hroom : size.toNat ≤ (rest.drop count).length
        · have hlength : ((rest.drop count).take size.toNat).length = size.toNat := by
            rw [List.length_take, Nat.min_eq_left hroom]
          refine .inr ⟨id, 1 + count, (rest.drop count).take size.toNat, by omega, ?_, ?_,
            fun position => ?_⟩
          · rw [hlength]
            rw [List.length_drop] at hroom
            rw [List.length_cons]
            omega
          · rw [hlength, hdrop]
          · rw [hframe, bind_run, Parser.bytes, Parser.take, Reader.peekBytes?, Reader.remaining,
              if_pos hroom, hlength, ← Reader.advance_advance]
            simp only [Reader.advance, hdrop]
            rfl
        · refine .inl ⟨.unexpectedEnd, 1 + count, by simp; omega, fun position => ?_⟩
          rw [hframe, bind_run, Parser.bytes, Parser.take, Reader.peekBytes?, Reader.remaining,
            if_neg hroom]
          simp only [Reader.advance, hdrop]

/-- A frame is shorter than what it is read from. -/
theorem frame_rest_lt {r r' : Reader} {found : Section} (h : frame r = .ok found r') :
    r'.rest.length < r.rest.length := by
  have hr : r = ⟨r.position, r.rest⟩ := rfl
  obtain ⟨fault, count, -, hrun⟩ | ⟨id, start, payload, hstart, hstop, -, hrun⟩ :=
    frame_cases r.rest
  · rw [hr, hrun] at h
    cases h
  · rw [hr, hrun] at h
    cases h
    show (r.rest.drop (start + payload.length)).length < r.rest.length
    rw [List.length_drop]
    omega

/-- A frame that is read lies in the bytes, behind where the reader stood, and the reader is moved
to its end. -/
theorem frame_ends {bytes : List UInt8} {r : Reader} (h : r.StandsIn bytes) :
    frame.Ends r
      (fun found r' => r'.StandsIn bytes ∧ found.LiesIn bytes ∧ r.position < found.offset ∧
        r'.position = found.offset + found.payload.length)
      (fun _ r' => r'.StandsIn bytes ∧ r.position ≤ r'.position) := by
  have hr : r = ⟨r.position, r.rest⟩ := rfl
  unfold Ends
  obtain ⟨fault, count, hcount, hrun⟩ | ⟨id, start, payload, hstart, hstop, hpayload, hrun⟩ :=
    frame_cases r.rest
  · rw [hr, hrun]
    exact ⟨h.advance hcount, Nat.le_add_right _ _⟩
  · rw [hr, hrun]
    have hstands := h.advance hstop
    have hle := hstands.position_le
    refine ⟨hstands, ⟨?_, ?_⟩, ?_, ?_⟩
    · show r.position + start + payload.length ≤ bytes.length
      rw [Nat.add_assoc]
      exact hle
    · show payload = (bytes.drop (r.position + start)).take payload.length
      rw [← List.drop_drop, ← h.rest_eq]
      exact hpayload
    · show r.position < r.position + start
      omega
    · show r.position + (start + payload.length) = r.position + start + payload.length
      omega

/-! ### The ends of a call -/

/-- Named custom sections, one after the other, lie between two states of a reader. -/
inductive Skips : SectionReader → SectionReader → Prop
  | none (s : SectionReader) : Skips s s
  | custom {s t : SectionReader} {found : Section} {r : Reader} {name : String}
    (hframe : frame s.reader = .ok found r) (hid : found.id = .custom)
    (hname : customName found.payload = .ok name)
    (h : Skips ⟨r, s.lastOrder,
      s.log.push (.customSkipped name found.offset found.payload.length)⟩ t) : Skips s t

/-- The ends of a call for the next section. -/
inductive NextCall (s : SectionReader) :
    EStateM.Result Fault SectionReader (Option Section) → Prop
  | ended {t : SectionReader} (hskips : Skips s t) (hend : t.reader.rest = []) :
    NextCall s (.ok none t)
  | broken {t : SectionReader} {fault : Fault} {r : Reader} (hskips : Skips s t)
    (hrest : t.reader.rest ≠ []) (hframe : frame t.reader = .error fault r) :
    NextCall s (.error fault { t with reader := r })
  | unnamed {t : SectionReader} {found : Section} {fault : Fault} {r : Reader}
    (hskips : Skips s t) (hframe : frame t.reader = .ok found r) (hid : found.id = .custom)
    (hname : customName found.payload = .error fault) :
    NextCall s (.error fault { t with reader := r })
  | disordered {t : SectionReader} {found : Section} {r : Reader} (hskips : Skips s t)
    (hframe : frame t.reader = .ok found r) (hid : found.id ≠ .custom)
    (horder : found.id.order ≤ t.lastOrder) :
    NextCall s (.error .sectionOrder { t with reader := r })
  | found {t : SectionReader} {found : Section} {r : Reader} (hskips : Skips s t)
    (hframe : frame t.reader = .ok found r) (hid : found.id ≠ .custom)
    (horder : t.lastOrder < found.id.order) :
    NextCall s (.ok (some found) ⟨r, found.id.order,
      t.log.push (.sectionFound found.id found.offset found.payload.length)⟩)

/-- One more custom section in front makes no difference. -/
theorem NextCall.skip {s : SectionReader} {found : Section} {r : Reader} {name : String}
    {ending : EStateM.Result Fault SectionReader (Option Section)}
    (hframe : frame s.reader = .ok found r) (hid : found.id = .custom)
    (hname : customName found.payload = .ok name)
    (h : NextCall ⟨r, s.lastOrder,
      s.log.push (.customSkipped name found.offset found.payload.length)⟩ ending) :
    NextCall s ending := by
  cases h with
  | ended hskips hend => exact .ended (.custom hframe hid hname hskips) hend
  | broken hskips hrest hother => exact .broken (.custom hframe hid hname hskips) hrest hother
  | unnamed hskips hother hid' hfault =>
    exact .unnamed (.custom hframe hid hname hskips) hother hid' hfault
  | disordered hskips hother hid' horder =>
    exact .disordered (.custom hframe hid hname hskips) hother hid' horder
  | found hskips hother hid' horder =>
    exact .found (.custom hframe hid hname hskips) hother hid' horder

/-- With room for as many frames as there are bytes, the call comes to an end by itself. -/
theorem nextWithin_cases (room : Nat) {s : SectionReader} (hroom : s.reader.remaining ≤ room) :
    NextCall s (nextWithin room s) := by
  induction room generalizing s with
  | zero => exact .ended (.none s) (List.length_eq_zero_iff.mp (Nat.le_zero.mp hroom))
  | succ room ih =>
    unfold nextWithin
    rw [bind_run, get_run]
    simp only
    split
    · rename_i hend
      exact .ended (.none s) (List.isEmpty_iff.mp hend)
    · rename_i hend
      have hrest : s.reader.rest ≠ [] := mt List.isEmpty_iff.mpr hend
      rw [bind_run, reading, onPart]
      cases hframe : frame s.reader with
      | error fault r => exact .broken (.none s) hrest hframe
      | ok found r =>
        simp only
        split
        · rename_i hid
          cases hname : customName found.payload with
          | error fault => exact .unnamed (.none s) hframe hid hname
          | ok name =>
            -- the frame took a byte, so there is room for what is left
            have hless : r.remaining < s.reader.remaining := frame_rest_lt hframe
            exact .skip hframe hid hname
              (ih (s := ⟨r, s.lastOrder, _⟩) (Nat.le_of_lt_succ (Nat.lt_of_lt_of_le hless hroom)))
        · rename_i hid
          rw [bind_run, get_run]
          simp only
          split
          · rename_i horder
            exact .disordered (.none s) hframe hid horder
          · rename_i horder
            exact NextCall.found (t := s) (.none s) hframe hid (Nat.lt_of_not_le horder)

theorem next?_cases {s : SectionReader}
    {ending : EStateM.Result Fault SectionReader (Option Section)} (h : next? s = ending) :
    NextCall s ending := by
  rw [← h]
  exact nextWithin_cases s.reader.remaining (Nat.le_refl _)

/-! ### How a call moves the reader -/

/-- How a call moves a reader that stands in `bytes`: forward, and to kinds no earlier. -/
structure Moves (bytes : List UInt8) (s s' : SectionReader) : Prop where
  standsIn : s'.reader.StandsIn bytes
  position_le : s.position ≤ s'.position
  lastOrder_le : s.lastOrder ≤ s'.lastOrder

/-- What a call answers that moves a reader from `s` to `s'`. -/
def Finds (bytes : List UInt8) (s s' : SectionReader) : Option Section → Prop
  | none => s'.position = bytes.length
  | some found => found.LiesIn bytes ∧ s.position ≤ found.offset ∧
      s'.position = found.offset + found.payload.length ∧ found.id ≠ .custom ∧
      s.lastOrder < found.id.order ∧ s'.lastOrder = found.id.order

section Calls

variable {bytes : List UInt8} {s t s' : SectionReader}

theorem Moves.refl (h : s.reader.StandsIn bytes) : Moves bytes s s :=
  ⟨h, Nat.le_refl _, Nat.le_refl _⟩

theorem Moves.trans (h : Moves bytes s t) (h' : Moves bytes t s') : Moves bytes s s' :=
  ⟨h'.standsIn, Nat.le_trans h.position_le h'.position_le,
    Nat.le_trans h.lastOrder_le h'.lastOrder_le⟩

/-- A frame that is read moves the reader past it. -/
theorem moves_frame (h : s.reader.StandsIn bytes) {found : Section} {r : Reader}
    (hframe : frame s.reader = .ok found r) (log : Array Event) :
    Moves bytes s ⟨r, s.lastOrder, log⟩ := by
  obtain ⟨hr, -, hstart, hstop⟩ := (frame_ends h).of_ok hframe
  refine ⟨hr, ?_, Nat.le_refl _⟩
  show s.reader.position ≤ r.position
  omega

theorem Skips.moves (h : s.reader.StandsIn bytes) (hskips : Skips s t) : Moves bytes s t := by
  induction hskips with
  | none s => exact .refl h
  | custom hframe _ _ _ ih =>
    have hstands := ((frame_ends h).of_ok hframe).1
    exact (moves_frame h hframe _).trans (ih hstands)

theorem next?_moves (hs : s.reader.StandsIn bytes) :
    next?.Ends s (fun found? s' => Moves bytes s s' ∧ Finds bytes s s' found?)
      (fun _ s' => Moves bytes s s') := by
  unfold Ends
  generalize hend : next? s = ending
  cases next?_cases hend with
  | @ended t hskips hrest =>
    have hmoves := hskips.moves hs
    refine ⟨hmoves, show t.reader.position = bytes.length from ?_⟩
    have hremaining := hmoves.standsIn.remaining_eq
    have hle := hmoves.standsIn.position_le
    rw [Reader.remaining, hrest, List.length_nil] at hremaining
    omega
  | broken hskips _ hframe =>
    have hmoves := hskips.moves hs
    obtain ⟨hr, hon⟩ := (frame_ends hmoves.standsIn).of_error hframe
    exact hmoves.trans ⟨hr, hon, Nat.le_refl _⟩
  | unnamed hskips hframe =>
    have hmoves := hskips.moves hs
    exact hmoves.trans (moves_frame hmoves.standsIn hframe _)
  | disordered hskips hframe =>
    have hmoves := hskips.moves hs
    exact hmoves.trans (moves_frame hmoves.standsIn hframe _)
  | @found t found r hskips hframe hid horder =>
    have hmoves := hskips.moves hs
    obtain ⟨hr, hlies, hstart, hstop⟩ := (frame_ends hmoves.standsIn).of_ok hframe
    have hon : s.position ≤ found.offset :=
      Nat.le_trans hmoves.position_le (Nat.le_of_lt hstart)
    have hlater : s.lastOrder < found.id.order := Nat.lt_of_le_of_lt hmoves.lastOrder_le horder
    refine ⟨⟨hr, ?_, Nat.le_of_lt hlater⟩, hlies, hon, hstop, hid, hlater, rfl⟩
    show s.position ≤ r.position
    omega

end Calls

/-! ### Any number of calls -/

/-- The reader after `count` calls, whatever they answered. -/
def afterCalls (s : SectionReader) : (count : Nat) → SectionReader
  | 0 => s
  | count + 1 => next?.after (s.afterCalls count)

/-- Call number `n`, the first of them being number 0, gives a section. -/
def Gives (s : SectionReader) (n : Nat) (found : Section) : Prop :=
  next? (s.afterCalls n) = .ok (some found) (s.afterCalls (n + 1))

/-- Call number `n` finds no more sections. -/
def Exhausted (s : SectionReader) (n : Nat) : Prop :=
  next? (s.afterCalls n) = .ok none (s.afterCalls (n + 1))

section Runs

variable {bytes : List UInt8} {s : SectionReader}

/-- What has a header is read from behind it. -/
theorem standsIn_of_accepted (h : ofBytes bytes = .ok s) : s.reader.StandsIn bytes := by
  unfold ofBytes at h
  split at h
  · rename_i hmagic
    dsimp only at h
    split at h
    · rename_i hversion
      cases h
      have hfour : 4 ≤ (Reader.ofBytes bytes).remaining := by
        have htake : (bytes.take 4).length ≤ bytes.length := List.length_take_le' 4 bytes
        rwa [hmagic] at htake
      exact ((Reader.standsIn_ofBytes bytes).advance hfour).advance
        (Reader.width_le_of_peekLittle? hversion)
    · cases h
  · cases h

theorem moves_after_next? (h : s.reader.StandsIn bytes) : Moves bytes s (next?.after s) := by
  unfold Action.after
  split
  · exact ((next?_moves h).of_ok ‹_›).1
  · exact (next?_moves h).of_error ‹_›

theorem afterCalls_standsIn (h : s.reader.StandsIn bytes) (n : Nat) :
    (s.afterCalls n).reader.StandsIn bytes := by
  induction n with
  | zero => exact h
  | succ n ih => exact (moves_after_next? ih).standsIn

theorem afterCalls_moves (h : s.reader.StandsIn bytes) {n k : Nat} (hnk : n ≤ k) :
    Moves bytes (s.afterCalls n) (s.afterCalls k) := by
  obtain ⟨calls, rfl⟩ := Nat.exists_eq_add_of_le hnk
  induction calls with
  | zero => exact .refl (afterCalls_standsIn h n)
  | succ calls ih =>
    exact (ih (Nat.le_add_right n calls)).trans (moves_after_next? (afterCalls_standsIn h _))

theorem Gives.finds (h : s.reader.StandsIn bytes) {n : Nat} {found : Section}
    (hgives : s.Gives n found) : Finds bytes (s.afterCalls n) (s.afterCalls (n + 1)) (some found) :=
  ((next?_moves (afterCalls_standsIn h n)).of_ok hgives).2

/-- Whatever stands between two sections that are given, the later one starts behind the end of the
earlier one and is of a later kind. -/
theorem Gives.ordered (h : s.reader.StandsIn bytes) {n k : Nat} (hnk : n < k)
    {first later : Section} (hfirst : s.Gives n first) (hlater : s.Gives k later) :
    first.offset + first.payload.length ≤ later.offset ∧ first.id.order < later.id.order := by
  have hbetween := afterCalls_moves h (Nat.succ_le_of_lt hnk)
  obtain ⟨-, -, hstop, -, -, hlast⟩ := hfirst.finds h
  obtain ⟨-, hstart, -, -, horder, -⟩ := hlater.finds h
  constructor
  · rw [← hstop]
    exact Nat.le_trans hbetween.position_le hstart
  · rw [← hlast]
    exact Nat.lt_of_le_of_lt hbetween.lastOrder_le horder

end Runs

/-- The sections of `bytes` that calls to a reader give, one call after the other. -/
structure Framed (bytes : List UInt8) (s : SectionReader) : Prop where
  position_mono : ∀ n k, n ≤ k → (s.afterCalls n).position ≤ (s.afterCalls k).position
  position_le : ∀ n, (s.afterCalls n).position ≤ bytes.length
  liesIn : ∀ n found, s.Gives n found → found.LiesIn bytes
  position_eq : ∀ n found, s.Gives n found →
    (s.afterCalls (n + 1)).position = found.offset + found.payload.length
  not_custom : ∀ n found, s.Gives n found → found.id ≠ .custom
  apart : ∀ n k, n < k → ∀ first later, s.Gives n first → s.Gives k later →
    first.offset + first.payload.length ≤ later.offset
  order_lt : ∀ n k, n < k → ∀ first later, s.Gives n first → s.Gives k later →
    first.id.order < later.id.order
  exhausted : ∀ n, s.Exhausted n → (s.afterCalls (n + 1)).position = bytes.length

/-- A reader of any bytes with a header gives the sections in them: exactly, one behind the other
and in the order of kinds, however many calls are made, and also when calls between them failed.
No kind comes twice.  The order is that of `Module.canonical`, in which the number of data segments
stands between the elements and the code. -/
theorem framed_of_accepted {bytes : List UInt8} {s : SectionReader} (h : ofBytes bytes = .ok s) :
    Framed bytes s ∧
      (∀ n k, n < k → ∀ first later, s.Gives n first → s.Gives k later → first.id ≠ later.id) ∧
      Module.canonical.Pairwise (fun id id' => id.order < id'.order) ∧
      ∀ id : SectionId, id ≠ .custom → id ∈ Module.canonical := by
  have hs := standsIn_of_accepted h
  refine ⟨?_, ?_, by decide, fun id => by cases id <;> decide⟩
  · exact {
      position_mono := fun n k hnk => (afterCalls_moves hs hnk).position_le
      position_le := fun n => (afterCalls_standsIn hs n).position_le
      liesIn := fun n found hgives => (hgives.finds hs).1
      position_eq := fun n found hgives => (hgives.finds hs).2.2.1
      not_custom := fun n found hgives => (hgives.finds hs).2.2.2.1
      apart := fun n k hnk _ _ hfirst hlater => (hfirst.ordered hs hnk hlater).1
      order_lt := fun n k hnk _ _ hfirst hlater => (hfirst.ordered hs hnk hlater).2
      exhausted := fun n hn => ((next?_moves (afterCalls_standsIn hs n)).of_ok hn).2 }
  · intro n k hnk first later hfirst hlater hid
    have horder := (hfirst.ordered hs hnk hlater).2
    rw [hid] at horder
    exact Nat.lt_irrefl _ horder

/-- An empty type section, another one, and an empty function section. -/
def repeatedType : List UInt8 :=
  [0x00, 0x61, 0x73, 0x6D, 0x01, 0x00, 0x00, 0x00, 1, 1, 0, 1, 1, 0, 3, 1, 0]

/-- The second type section is refused, and the call after that goes on behind it. -/
theorem repeatedType_framed : ∃ s, ofBytes repeatedType = .ok s ∧ Framed repeatedType s ∧
    s.Gives 0 ⟨.type, 10, [0]⟩ ∧ next?.fault? (s.afterCalls 1) = some .sectionOrder ∧
    s.Gives 2 ⟨.function, 16, [0]⟩ ∧ s.Exhausted 3 :=
  ⟨⟨⟨8, [1, 1, 0, 1, 1, 0, 3, 1, 0]⟩, 0, #[]⟩, rfl, (framed_of_accepted rfl).1, rfl, rfl, rfl, rfl⟩

end SectionReader

end BoundedWasm
