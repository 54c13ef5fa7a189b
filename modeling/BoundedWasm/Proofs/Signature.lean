import BoundedWasm.FixedVec.Lemmas
import BoundedWasm.Signature

/-!
# BoundedWasm.Proofs.Signature — which texts are signatures, and which types fit them

A signature is spelled by one text only: its input markers between parentheses, then its output
markers, each as one character (`Signature.Spells`).  Such a text is read as these markers, and any
other is refused as an invalid signature.  A signature accepts the types that agree with its markers
in number and place by place (`Signature.Fits`).
-/

namespace BoundedWasm

namespace Marker

/-- The character that stands for a marker. -/
def char : Marker → Char
  | int => 'i'
  | float => 'f'
  | any => '*'

/-- The types that a marker stands for. -/
inductive Admits : Marker → ValueType → Prop
  | i32 : Admits int .i32
  | i64 : Admits int .i64
  | f32 : Admits float .f32
  | f64 : Admits float .f64
  | any (type : ValueType) : Admits any type

theorem ofChar?_eq_some_iff {c : Char} {marker : Marker} :
    ofChar? c = some marker ↔ c = marker.char := by
  constructor
  · intro h
    unfold ofChar? at h
    split at h <;> cases h <;> rfl
  · rintro rfl
    cases marker <;> rfl

theorem char_ne_close (marker : Marker) : marker.char ≠ ')' := by
  cases marker <;> decide

theorem accepts_iff {marker : Marker} {type : ValueType} :
    marker.accepts type = true ↔ marker.Admits type := by
  constructor
  · intro h
    cases marker <;> cases type <;> first | constructor | cases h
  · intro h
    cases h with
    | any type => cases type <;> rfl
    | _ => rfl

end Marker

namespace Signature

/-- The text is the inputs in parentheses and the outputs behind them, a character for each, and
there are not too many of either. -/
structure Spells (text : String) (inputs outputs : List Marker) : Prop where
  toList_eq : text.toList = '(' :: (inputs.map Marker.char ++ ')' :: outputs.map Marker.char)
  inputs_le : inputs.length ≤ Limits.maxParams
  outputs_le : outputs.length ≤ Limits.maxParams

/-- There are as many types as markers, and at every place the marker admits the type. -/
def Fits (markers : List Marker) (types : List ValueType) : Prop :=
  types.length = markers.length ∧
    ∀ (k : Nat) (marker : Marker) (type : ValueType),
      markers[k]? = some marker → types[k]? = some type → marker.Admits type

/-! ### Runs of markers -/

/-- How many more markers fit among the inputs, or among the outputs. -/
def room (s : Signature) (closed : Bool) : Nat := if closed then s.outputs.free else s.inputs.free

/-- The signature with more inputs, or more outputs, as many as fit. -/
def addAll (s : Signature) (closed : Bool) (more : List Marker) : Signature :=
  if closed then { s with outputs := s.outputs.putAll more }
  else { s with inputs := s.inputs.putAll more }

theorem addAll_nil (s : Signature) (closed : Bool) : s.addAll closed [] = s := by
  cases closed <;> rfl

theorem addAll_cons (s : Signature) (closed : Bool) (marker : Marker) (more : List Marker) :
    s.addAll closed (marker :: more) = (s.addAll closed [marker]).addAll closed more := by
  cases closed <;> rfl

theorem room_addAll (s : Signature) (closed : Bool) (marker : Marker) :
    (s.addAll closed [marker]).room closed = s.room closed - 1 := by
  have hput : ∀ v : FixedVec Marker Limits.maxParams, (v.put marker).free = v.free - 1 := by
    intro v
    have hle := v.length_le
    simp only [FixedVec.free, FixedVec.length_put]
    split <;> omega
  cases closed
  · exact hput s.inputs
  · exact hput s.outputs

theorem add_eq (s : Signature) (closed : Bool) (marker : Marker) :
    s.add closed marker = if 0 < s.room closed then .ok (s.addAll closed [marker])
      else .error .signatureTooLong := by
  have hpush : ∀ v : FixedVec Marker Limits.maxParams,
      v.push marker = if 0 < v.free then .ok (v.put marker) else .error .tableFull := by
    intro v
    simp only [FixedVec.push, FixedVec.free, Nat.sub_pos_iff_lt]
  cases closed
  · simp only [add, hpush, room, addAll, Bool.false_eq_true, if_false]
    by_cases h : 0 < s.inputs.free <;> simp [h, FixedVec.putAll]
  · simp only [add, hpush, room, addAll, if_true]
    by_cases h : 0 < s.outputs.free <;> simp [h, FixedVec.putAll]

theorem markers_char (s : Signature) (closed : Bool) (marker : Marker) (rest : List Char) :
    s.markers closed (marker.char :: rest) = if 0 < s.room closed
      then (s.addAll closed [marker]).markers closed rest else .error .signatureTooLong := by
  have hmarker : Marker.ofChar? marker.char = some marker := Marker.ofChar?_eq_some_iff.mpr rfl
  rw [markers]
  · simp only [hmarker, add_eq]
    by_cases h : 0 < s.room closed <;> simp [h]
  · exact marker.char_ne_close

theorem markers_other {c : Char} (hc : Marker.ofChar? c = none) (hclose : c ≠ ')') (s : Signature)
    (closed : Bool) (rest : List Char) :
    s.markers closed (c :: rest) = .error .signatureCharacter := by
  rw [markers]
  · simp only [hc]
  · exact hclose

/-- A run of markers is read as a whole, or there are too many of them. -/
theorem markers_run (s : Signature) (closed : Bool) (run : List Marker) (rest : List Char) :
    s.markers closed (run.map Marker.char ++ rest) = if run.length ≤ s.room closed
      then (s.addAll closed run).markers closed rest else .error .signatureTooLong := by
  induction run generalizing s with
  | nil => simp [addAll_nil]
  | cons marker run ih =>
    rw [List.map_cons, List.cons_append, markers_char, ih, room_addAll, ← addAll_cons,
      List.length_cons]
    by_cases hroom : 0 < s.room closed
    · rw [if_pos hroom]
      congr 1
      apply propext
      omega
    · rw [if_neg hroom, if_neg (by omega)]

/-- Every text begins with a run of markers, and goes on with something else if at all. -/
theorem exists_run (chars : List Char) : ∃ (run : List Marker) (rest : List Char),
    chars = run.map Marker.char ++ rest ∧ ∀ c ∈ rest.head?, Marker.ofChar? c = none := by
  induction chars with
  | nil => exact ⟨[], [], rfl, by simp⟩
  | cons c chars ih =>
    cases hc : Marker.ofChar? c with
    | none => exact ⟨[], c :: chars, rfl, by simpa using hc⟩
    | some marker =>
      obtain ⟨run, rest, rfl, hrest⟩ := ih
      obtain rfl := Marker.ofChar?_eq_some_iff.mp hc
      exact ⟨marker :: run, rest, rfl, hrest⟩

/-- What is read on one side: a run of markers, and then the text ends, the closing parenthesis
follows or the text is refused. -/
theorem markers_cases (s : Signature) (closed : Bool) (chars : List Char) :
    (∃ (run : List Marker) (rest : List Char), chars = run.map Marker.char ++ rest ∧
      run.length ≤ s.room closed ∧ (rest = [] ∨ ∃ more, rest = ')' :: more) ∧
      s.markers closed chars = (s.addAll closed run).markers closed rest) ∨
    ∃ message, s.markers closed chars = .error (.invalidSignature message) := by
  obtain ⟨run, rest, rfl, hrest⟩ := exists_run chars
  have hrun := markers_run s closed run rest
  by_cases hroom : run.length ≤ s.room closed
  · rw [if_pos hroom] at hrun
    cases rest with
    | nil => exact .inl ⟨run, [], rfl, hroom, .inl rfl, hrun⟩
    | cons c more =>
      by_cases hclose : c = ')'
      · exact .inl ⟨run, c :: more, rfl, hroom, .inr ⟨more, by rw [hclose]⟩, hrun⟩
      · rw [markers_other (hrest c rfl) hclose] at hrun
        exact .inr ⟨_, hrun⟩
  · rw [if_neg hroom] at hrun
    exact .inr ⟨_, hrun⟩

/-! ### Texts -/

/-- The signature with these markers, as many as fit. -/
def ofMarkers (inputs outputs : List Marker) : Signature :=
  addAll (addAll {} false inputs) true outputs

theorem ofString_of_spells {text : String} {inputs outputs : List Marker}
    (h : Spells text inputs outputs) : ofString text = .ok (ofMarkers inputs outputs) := by
  have hinputs : inputs.length ≤ ({} : Signature).room false := h.inputs_le
  have houtputs : outputs.length ≤ (addAll {} false inputs).room true := h.outputs_le
  have hend := markers_run (addAll {} false inputs) true outputs []
  rw [if_pos houtputs, List.append_nil] at hend
  unfold ofString
  simp only [h.toList_eq]
  rw [markers_run, if_pos hinputs]
  exact hend

theorem ofString_cases (text : String) :
    (∃ inputs outputs, Spells text inputs outputs ∧
      ofString text = .ok (ofMarkers inputs outputs)) ∨
    ∃ message, ofString text = .error (.invalidSignature message) := by
  cases htext : text.toList with
  | nil =>
    exact .inr ⟨_, by simp only [ofString, htext]; rfl⟩
  | cons c chars =>
    by_cases hopen : c = '('
    · subst hopen
      have hread : ofString text = markers {} false chars := by simp only [ofString, htext]
      rw [hread]
      obtain ⟨inputs, rest, rfl, hinputs, rfl | ⟨more, rfl⟩, hrun⟩ | hrefused :=
        markers_cases {} false chars
      · exact .inr ⟨_, hrun⟩
      · obtain ⟨outputs, rest, rfl, houtputs, rfl | ⟨more, rfl⟩, hrun'⟩ | ⟨message, hrefused⟩ :=
          markers_cases (addAll {} false inputs) true more
        · rw [List.append_nil] at htext
          exact .inl ⟨inputs, outputs, ⟨htext, hinputs, houtputs⟩, hrun.trans hrun'⟩
        · exact .inr ⟨_, hrun.trans hrun'⟩
        · exact .inr ⟨message, hrun.trans hrefused⟩
      · exact .inr hrefused
    · refine .inr ⟨"Signature must start with '('", ?_⟩
      unfold ofString
      split
      · rename_i heq
        rw [htext] at heq
        cases heq
        exact absurd rfl hopen
      · rfl

theorem toList_ofMarkers {text : String} {inputs outputs : List Marker}
    (h : Spells text inputs outputs) : (ofMarkers inputs outputs).inputs.toList = inputs ∧
      (ofMarkers inputs outputs).outputs.toList = outputs := by
  have hempty : ∀ markers : List Marker, markers.length ≤ Limits.maxParams →
      ((FixedVec.empty : FixedVec Marker Limits.maxParams).putAll markers).toList = markers := by
    intro markers hle
    rw [FixedVec.toList_putAll_of_le hle]
    rfl
  exact ⟨hempty inputs h.inputs_le, hempty outputs h.outputs_le⟩

theorem exists_ofString_iff {text : String} {inputs outputs : List Marker} :
    (∃ s, ofString text = .ok s ∧ s.inputs.toList = inputs ∧ s.outputs.toList = outputs) ↔
      Spells text inputs outputs := by
  constructor
  · rintro ⟨s, hread, rfl, rfl⟩
    obtain ⟨inputs, outputs, hspells, hok⟩ | ⟨message, herror⟩ := ofString_cases text
    · cases hread.symm.trans hok
      obtain ⟨hinputs, houtputs⟩ := toList_ofMarkers hspells
      rw [hinputs, houtputs]
      exact hspells
    · cases hread.symm.trans herror
  · intro h
    obtain ⟨hinputs, houtputs⟩ := toList_ofMarkers h
    exact ⟨_, ofString_of_spells h, hinputs, houtputs⟩

theorem invalid_iff {text : String} :
    (∃ message, ofString text = .error (.invalidSignature message)) ↔
      ∀ inputs outputs, ¬ Spells text inputs outputs := by
  constructor
  · rintro ⟨message, herror⟩ inputs outputs hspells
    cases herror.symm.trans (ofString_of_spells hspells)
  · intro h
    obtain ⟨inputs, outputs, hspells, -⟩ | hrefused := ofString_cases text
    · exact absurd hspells (h inputs outputs)
    · exact hrefused

/-! ### Types -/

theorem allAccept_iff {markers : List Marker} {types : List ValueType} :
    allAccept markers types = true ↔ Fits markers types := by
  simp only [allAccept, Fits, Bool.and_eq_true, beq_iff_eq, List.all_eq_true]
  constructor
  · rintro ⟨hlength, hall⟩
    refine ⟨hlength.symm, fun k marker type hmarker htype => ?_⟩
    have hpair : (marker, type) ∈ markers.zip types :=
      List.mem_of_getElem? (List.getElem?_zip_eq_some.mpr ⟨hmarker, htype⟩)
    exact Marker.accepts_iff.mp (hall _ hpair)
  · rintro ⟨hlength, hall⟩
    refine ⟨hlength.symm, fun ⟨marker, type⟩ hpair => ?_⟩
    obtain ⟨k, hk⟩ := List.mem_iff_getElem?.mp hpair
    obtain ⟨hmarker, htype⟩ := List.getElem?_zip_eq_some.mp hk
    exact Marker.accepts_iff.mpr (hall k marker type hmarker htype)

/-- A text is read as a signature with certain markers exactly when it spells them, and is refused
as an invalid signature exactly when it spells none.  A signature accepts a function's types exactly
when its inputs fit the parameters and its outputs the results. -/
theorem signatures_exact :
    (∀ (text : String) (inputs outputs : List Marker),
      (∃ s, ofString text = .ok s ∧ s.inputs.toList = inputs ∧ s.outputs.toList = outputs) ↔
        Spells text inputs outputs) ∧
    (∀ text : String, (∃ message, ofString text = .error (.invalidSignature message)) ↔
      ∀ inputs outputs, ¬ Spells text inputs outputs) ∧
    ∀ (s : Signature) (params results : List ValueType), s.accepts params results = true ↔
      Fits s.inputs.toList params ∧ Fits s.outputs.toList results := by
  refine ⟨fun text inputs outputs => exists_ofString_iff, fun text => invalid_iff, ?_⟩
  intro s params results
  rw [accepts, Bool.and_eq_true, allAccept_iff, allAccept_iff]

end Signature

end BoundedWasm
