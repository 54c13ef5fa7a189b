import BoundedWasm.Proofs.Reader.Operations

/-!
# BoundedWasm.Proofs.Reader.Sharing — readers of one buffer

A reader that is split off looks at the next bytes of the reader that it comes from, and readers may
be split off from it again.  A `Placed` reader knows which stretch of the buffer it was made for.
In any sequence of operations on any of them, every reader stays within its stretch and has ahead of
it what the buffer holds there, and no other reader is moved by what is done with it (`Confines`).
-/

namespace BoundedWasm

namespace Reader

theorem StepsOver.remaining_eq {r r' : Reader} {bytes : List UInt8} (h : r.StepsOver bytes r') :
    bytes.length + r'.remaining = r.remaining := by
  rw [remaining, remaining, h.rest_eq, List.length_append]

/-- A reader, and the stretch of the buffer that it was made for. -/
structure Placed where
  start : Nat
  length : Nat
  reader : Reader

/-- An operation on one of several readers. -/
structure Request where
  place : Nat
  Answer : Type
  operation : Operation Answer

namespace Placed

/-- The reader stands in its stretch, which lies in the buffer, and has the rest of it ahead. -/
structure Confined (buffer : List UInt8) (p : Placed) : Prop where
  stop_le : p.start + p.length ≤ buffer.length
  position_le : p.reader.position ≤ p.length
  remaining_eq : p.reader.remaining = p.length - p.reader.position
  rest_eq : p.reader.rest
    = (buffer.drop (p.start + p.reader.position)).take (p.length - p.reader.position)

/-- The readers that an answer brings: one that is split off is made for the next bytes. -/
def opened {α : Type} (p : Placed) : Operation α → α → List Placed
  | .sub count, inner => [⟨p.start + p.reader.position, count, inner⟩]
  | _, _ => []

/-- Carries out an operation on one of the readers. -/
def serve (readers : List Placed) (request : Request) : List Placed :=
  match readers[request.place]? with
  | none => readers
  | some p =>
    match request.operation.run p.reader with
    | .error _ r => readers.set request.place { p with reader := r }
    | .ok answer r =>
      readers.set request.place { p with reader := r } ++ p.opened request.operation answer

/-- The readers after a sequence of operations, of which the first is made for the whole buffer. -/
def session (buffer : List UInt8) (requests : List Request) : List Placed :=
  requests.foldl serve [⟨0, buffer.length, .ofBytes buffer⟩]

/-- The reader has kept its stretch, and has not gone back. -/
structure Lasts (p p' : Placed) : Prop where
  start_eq : p'.start = p.start
  length_eq : p'.length = p.length
  position_le : p.reader.position ≤ p'.reader.position

/-- What holds after a sequence of operations, whatever they are and whichever readers they are
asked of, and whatever is asked afterwards. -/
structure Confines (buffer : List UInt8) (requests : List Request) : Prop where
  confined : ∀ p ∈ session buffer requests, p.Confined buffer
  answers : ∀ (request : Request) (p : Placed) (answer : request.Answer) (r : Reader),
    (session buffer requests)[request.place]? = some p →
    request.operation.run p.reader = .ok answer r → ∃ taken,
      taken = (buffer.drop (p.start + p.reader.position)).take taken.length ∧
      r.position = p.reader.position + taken.length ∧ request.operation.Takes taken r.rest answer
  refuses : ∀ (request : Request) (p : Placed) (fault : Fault) (r : Reader),
    (session buffer requests)[request.place]? = some p →
    request.operation.run p.reader = .error fault r →
      session buffer (requests ++ [request]) = session buffer requests
  splits : ∀ (k : Nat) (p : Placed) (count : Nat), (session buffer requests)[k]? = some p →
    count ≤ p.reader.remaining → ∃ inner r : Reader,
      session buffer (requests ++ [⟨k, Reader, .sub count⟩])
        = (session buffer requests).set k { p with reader := r }
          ++ [⟨p.start + p.reader.position, count, inner⟩] ∧
      inner.position = 0 ∧ r.position = p.reader.position + count
  lasts : ∀ (k : Nat) (p : Placed) (more : List Request),
    (session buffer requests)[k]? = some p → ∃ p' : Placed,
      (session buffer (requests ++ more))[k]? = some p' ∧ p.Lasts p' ∧
      ((∀ request ∈ more, request.place ≠ k) → p' = p)

/-! ### One reader -/

variable {buffer : List UInt8} {p : Placed}

theorem confined_first (buffer : List UInt8) :
    Confined buffer ⟨0, buffer.length, .ofBytes buffer⟩ := by
  constructor <;> simp [ofBytes, remaining]

/-- A reader that steps over bytes ahead of it stays in its stretch. -/
theorem Confined.moved (h : p.Confined buffer) {taken : List UInt8} {r : Reader}
    (hover : p.reader.StepsOver taken r) : Confined buffer { p with reader := r } := by
  have hposition := hover.position_eq
  have hremaining := h.remaining_eq
  have hle := h.position_le
  have hlength := hover.remaining_eq
  have hrest : r.rest = p.reader.rest.drop taken.length := by rw [hover.rest_eq, List.drop_left]
  refine ⟨h.stop_le, ?_, ?_, ?_⟩
  · show r.position ≤ p.length
    omega
  · show r.remaining = p.length - r.position
    omega
  · show r.rest = (buffer.drop (p.start + r.position)).take (p.length - r.position)
    rw [hrest, h.rest_eq, List.drop_take, List.drop_drop, hposition, Nat.add_assoc,
      Nat.sub_add_eq]

/-- The bytes that a reader steps over are those that the buffer holds there. -/
theorem Confined.taken_eq (h : p.Confined buffer) {taken : List UInt8} {r : Reader}
    (hover : p.reader.StepsOver taken r) :
    taken = (buffer.drop (p.start + p.reader.position)).take taken.length := by
  have hlength := hover.remaining_eq
  have hremaining := h.remaining_eq
  have htaken : taken = p.reader.rest.take taken.length := by rw [hover.rest_eq, List.take_left]
  rw [h.rest_eq, List.take_take, Nat.min_eq_left (by omega)] at htaken
  exact htaken

/-- A reader that is split off stands at the start of the bytes that it is made for. -/
theorem Confined.split (h : p.Confined buffer) {taken : List UInt8} {r : Reader}
    (hover : p.reader.StepsOver taken r) :
    Confined buffer ⟨p.start + p.reader.position, taken.length, .ofBytes taken⟩ := by
  have hle := h.position_le
  have hstop := h.stop_le
  have hlength := hover.remaining_eq
  have hremaining := h.remaining_eq
  refine ⟨?_, Nat.zero_le _, rfl, h.taken_eq hover⟩
  show p.start + p.reader.position + taken.length ≤ buffer.length
  omega

/-! ### All readers -/

variable {readers : List Placed} {request : Request}

theorem serve_refused (hp : readers[request.place]? = some p) {fault : Fault} {r : Reader}
    (hrun : request.operation.run p.reader = .error fault r) : serve readers request = readers := by
  obtain rfl := request.operation.exact.stays _ _ _ hrun
  obtain ⟨hlt, rfl⟩ := List.getElem?_eq_some_iff.mp hp
  simp only [serve, hp, hrun]
  exact List.set_getElem_self hlt

theorem serve_answered (request : Request) (hp : readers[request.place]? = some p)
    {answer : request.Answer} {r : Reader}
    (hrun : request.operation.run p.reader = .ok answer r) : serve readers request
      = readers.set request.place { p with reader := r } ++ p.opened request.operation answer := by
  simp only [serve, hp, hrun]

/-- How a request may end: nobody is there, it is refused, or it is answered. -/
theorem serve_cases (readers : List Placed) (request : Request) :
    serve readers request = readers ∨ ∃ p answer r taken,
      readers[request.place]? = some p ∧ request.operation.run p.reader = .ok answer r ∧
      p.reader.StepsOver taken r ∧ request.operation.Takes taken r.rest answer ∧
      serve readers request = readers.set request.place { p with reader := r }
        ++ p.opened request.operation answer := by
  cases hp : readers[request.place]? with
  | none => exact .inl (by simp only [serve, hp])
  | some p =>
    cases hrun : request.operation.run p.reader with
    | error fault r => exact .inl (serve_refused hp hrun)
    | ok answer r =>
      obtain ⟨taken, hover, htaken⟩ := (request.operation.exact.answers _ _ _).mp hrun
      exact .inr ⟨p, answer, r, taken, rfl, hrun, hover, htaken, serve_answered _ hp hrun⟩

/-- What an answer brings is confined. -/
theorem Confined.opened (h : p.Confined buffer) {α : Type} {op : Operation α} {answer : α}
    {taken : List UInt8} {r : Reader} (hover : p.reader.StepsOver taken r)
    (htaken : op.Takes taken r.rest answer) : ∀ q ∈ p.opened op answer, q.Confined buffer := by
  intro q hq
  cases op with
  | sub count =>
    obtain ⟨rfl, rfl⟩ := htaken
    obtain rfl := List.mem_singleton.mp hq
    exact h.split hover
  | _ => cases hq

theorem serve_confined (h : ∀ p ∈ readers, p.Confined buffer) (request : Request) :
    ∀ p ∈ serve readers request, p.Confined buffer := by
  obtain hsame | ⟨p, answer, r, taken, hp, -, hover, htaken, hserve⟩ :=
    serve_cases readers request
  · rw [hsame]
    exact h
  · have hconfined := h p (List.mem_of_getElem? hp)
    intro q hq
    rw [hserve, List.mem_append] at hq
    obtain hq | hq := hq
    · obtain hq | rfl := List.mem_or_eq_of_mem_set hq
      · exact h q hq
      · exact hconfined.moved hover
    · exact hconfined.opened hover htaken q hq

theorem session_concat (buffer : List UInt8) (requests more : List Request) :
    session buffer (requests ++ more) = more.foldl serve (session buffer requests) :=
  List.foldl_append

theorem session_confined (buffer : List UInt8) (requests : List Request) :
    ∀ p ∈ session buffer requests, p.Confined buffer := by
  have hfold : ∀ (requests : List Request) (readers : List Placed),
      (∀ p ∈ readers, p.Confined buffer) →
      ∀ p ∈ requests.foldl serve readers, p.Confined buffer := by
    intro requests
    induction requests with
    | nil => exact fun _ h => h
    | cons request requests ih => exact fun readers h => ih _ (serve_confined h request)
  refine hfold requests _ fun p hp => ?_
  obtain rfl := List.mem_singleton.mp hp
  exact confined_first buffer

theorem serve_lasts {k : Nat} (hp : readers[k]? = some p) (request : Request) :
    ∃ p', (serve readers request)[k]? = some p' ∧ p.Lasts p' ∧ (request.place ≠ k → p' = p) := by
  have hlt : k < readers.length := (List.getElem?_eq_some_iff.mp hp).1
  obtain hsame | ⟨q, answer, r, taken, hq, -, hover, -, hserve⟩ := serve_cases readers request
  · rw [hsame]
    exact ⟨p, hp, ⟨rfl, rfl, le_rfl⟩, fun _ => rfl⟩
  · rw [hserve, List.getElem?_append_left (by rwa [List.length_set]), List.getElem?_set]
    by_cases hk : request.place = k
    · subst hk
      cases hp.symm.trans hq
      have hposition := hover.position_eq
      refine ⟨{ p with reader := r }, by rw [if_pos rfl, if_pos hlt], ⟨rfl, rfl, ?_⟩,
        fun hne => absurd rfl hne⟩
      show p.reader.position ≤ r.position
      omega
    · exact ⟨p, by rw [if_neg hk, hp], ⟨rfl, rfl, le_rfl⟩, fun _ => rfl⟩

theorem foldl_serve_lasts {k : Nat} (hp : readers[k]? = some p) (more : List Request) :
    ∃ p', (more.foldl serve readers)[k]? = some p' ∧ p.Lasts p' ∧
      ((∀ request ∈ more, request.place ≠ k) → p' = p) := by
  induction more generalizing readers p with
  | nil => exact ⟨p, hp, ⟨rfl, rfl, le_rfl⟩, fun _ => rfl⟩
  | cons request more ih =>
    obtain ⟨p₁, hp₁, hlasts, hsame⟩ := serve_lasts hp request
    obtain ⟨p₂, hp₂, hlasts', hsame'⟩ := ih hp₁
    refine ⟨p₂, hp₂, ⟨hlasts'.start_eq.trans hlasts.start_eq,
      hlasts'.length_eq.trans hlasts.length_eq,
      Nat.le_trans hlasts.position_le hlasts'.position_le⟩, fun hmore => ?_⟩
    rw [List.forall_mem_cons] at hmore
    rw [hsame' hmore.2, hsame hmore.1]

theorem confines (buffer : List UInt8) (requests : List Request) : Confines buffer requests where
  confined := session_confined buffer requests
  answers request p answer r hp hrun := by
    have hconfined := session_confined buffer requests p (List.mem_of_getElem? hp)
    obtain ⟨taken, hover, htaken⟩ := (request.operation.exact.answers _ _ _).mp hrun
    exact ⟨taken, hconfined.taken_eq hover, hover.position_eq, htaken⟩
  refuses request p fault r hp hrun := by
    rw [session_concat]
    exact serve_refused hp hrun
  splits k p count hp hcount := by
    have htaken : (p.reader.rest.take count).length = count := by
      rw [List.length_take]
      exact Nat.min_eq_left hcount
    have hover : p.reader.StepsOver (p.reader.rest.take count) (p.reader.advance count) :=
      ⟨(List.take_append_drop _ _).symm, by rw [htaken]; rfl⟩
    have hrun := ((Operation.sub count).exact.answers p.reader (p.reader.advance count)
      (.ofBytes (p.reader.rest.take count))).mpr ⟨_, hover, htaken, rfl⟩
    refine ⟨.ofBytes (p.reader.rest.take count), p.reader.advance count, ?_, rfl, rfl⟩
    rw [session_concat]
    exact serve_answered ⟨k, Reader, .sub count⟩ hp hrun
  lasts k p more hp := by
    rw [session_concat]
    exact foldl_serve_lasts hp more

end Placed

open Placed in
/-- Every operation is exact, a name whose length is above the limit is refused before its bytes are
looked for, and all readers of a buffer stay within the stretches that they were made for, whatever
is asked of them. -/
theorem operations_confined :
    (∀ (α : Type) (op : Operation α), op.Exact) ∧
    (∀ (maxLength : Nat) (r : Reader), Parser.name maxLength r = .error .nameTooLong r ↔
      ∃ length size rest, r.rest = size ++ rest ∧ Leb128.Unsigned 32 length size ∧
        maxLength < length) ∧
    ∀ (buffer : List UInt8) (requests : List Request), Confines buffer requests :=
  ⟨fun _ op => op.exact, fun _ _ => Parser.name_tooLong_iff, confines⟩

/-- A reader of three bytes is split off and read to its end, while the first reader goes on behind
them. -/
example : (Placed.session [1, 2, 3, 4, 5] [⟨0, Reader, .sub 3⟩, ⟨0, UInt8, .byte⟩,
    ⟨1, Nat, .fixed .big 2⟩, ⟨1, Nat, .fixed .big 2⟩, ⟨1, UInt8, .byte⟩]).map
      (fun p => (p.start, p.length, p.reader)) = [(0, 5, ⟨4, [5]⟩), (0, 3, ⟨3, []⟩)] := by
  decide

end Reader

end BoundedWasm
