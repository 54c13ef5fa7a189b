import BoundedWasm.FixedVec.Lemmas

/-!
# BoundedWasm.Proofs.FixedVec — a vector of fixed capacity is a list with a bound

A vector is asked for one change after the other.  A list that is asked for the same, and refuses
whatever asks for more than the capacity, gives the same answers and always has the same contents
(`refines_bounded_list`).  As the slots that are not in use always hold the default value, vectors
with the same contents are the same vector, whatever was done with them.
-/

namespace BoundedWasm

/-- A change of elements in place: there are as many afterwards. -/
structure SliceEdit (α : Type) where
  apply : List α → List α
  length_apply : ∀ xs, (apply xs).length = xs.length

/-- What may be asked of a vector. -/
inductive VecRequest (α : Type) where
  | push (x : α)
  | pop
  | ensure (count : Nat)
  | resize (length : Nat) (x : α)
  | extend (xs : List α)
  | truncate (length : Nat)
  | clear
  | set (i : Nat) (x : α)
  | edit (change : SliceEdit α)

namespace VecRequest

variable {σ τ α : Type} {cap : Nat} {xs : List α}

/-- The element that `pop` has taken, if there was one, or the fault with which a request is
refused. -/
abbrev Answer (α : Type) : Type := Except Fault (Option α)

/-- Serves requests one after the other: the answers, and the state that is left. -/
def session (serve : σ → VecRequest α → Answer α × σ) (s : σ) :
    List (VecRequest α) → List (Answer α) × σ
  | [] => ([], s)
  | request :: requests =>
    let rest := session serve (serve s request).2 requests
    ((serve s request).1 :: rest.1, rest.2)

/-- What the request does with a list that has no bound, and what it answers. -/
def onList (xs : List α) : VecRequest α → Option α × List α
  | push x => (none, xs ++ [x])
  | pop => (xs.getLast?, xs.dropLast)
  | ensure _ => (none, xs)
  | resize length x => (none, xs.take length ++ List.replicate (length - xs.length) x)
  | extend ys => (none, xs ++ ys)
  | truncate length => (none, xs.take length)
  | clear => (none, [])
  | set i x => (none, xs.set i x)
  | edit change => (none, change.apply xs)

/-- The length that the request asks for. -/
def needs (xs : List α) : VecRequest α → Nat
  | ensure count => xs.length + count
  | request => (request.onList xs).2.length

/-- The fault that refuses the request. -/
def refusal : VecRequest α → Fault
  | ensure _ | extend _ => .vectorTooLong
  | _ => .tableFull

/-- Serves a request on a list with a bound: one that asks for more is refused, and then nothing is
changed. -/
def serveList (cap : Nat) (xs : List α) (request : VecRequest α) : Answer α × List α :=
  if request.needs xs ≤ cap then (.ok (request.onList xs).1, (request.onList xs).2)
  else (.error request.refusal, xs)

/-! ### Lists with a bound -/

@[simp] theorem needs_push (x : α) : (push x).needs xs = xs.length + 1 := by simp [needs, onList]

@[simp] theorem needs_ensure (count : Nat) : (ensure count).needs xs = xs.length + count := rfl

@[simp] theorem needs_resize (length : Nat) (x : α) : (resize length x).needs xs = length := by
  simp only [needs, onList, List.length_append, List.length_take, List.length_replicate]
  omega

@[simp] theorem needs_extend (ys : List α) : (extend ys).needs xs = xs.length + ys.length := by
  simp [needs, onList]

theorem category_refusal (request : VecRequest α) : request.refusal.category = .capacity := by
  cases request <;> rfl

/-- Nothing but an overrun of the capacity is ever answered with a fault. -/
theorem category_of_error {fault : Fault} {requests : List (VecRequest α)}
    (h : .error fault ∈ (session (serveList cap) xs requests).1) : fault.category = .capacity := by
  induction requests generalizing xs with
  | nil => cases h
  | cons request requests ih =>
    rcases List.mem_cons.mp h with hfirst | hrest
    · unfold serveList at hfirst
      split at hfirst
      · cases hfirst
      · cases hfirst
        exact request.category_refusal
    · exact ih hrest

/-- Two ways to serve requests that agree on one request, seen through `view`, agree on all. -/
theorem session_view {serve : σ → VecRequest α → Answer α × σ}
    {serve' : τ → VecRequest α → Answer α × τ} (view : σ → τ)
    (hstep : ∀ s request, ((serve s request).1, view (serve s request).2)
      = serve' (view s) request) (s : σ) (requests : List (VecRequest α)) :
    ((session serve s requests).1, view (session serve s requests).2)
      = session serve' (view s) requests := by
  induction requests generalizing s with
  | nil => rfl
  | cons request requests ih =>
    have hrest := ih (serve s request).2
    rw [session, session, ← hstep s request, ← hrest]

end VecRequest

namespace FixedVec

open VecRequest

variable {α : Type} [Inhabited α] {cap : Nat} {v w : FixedVec α cap}

/-! ### Serving requests -/

/-- The end of an operation that answers nothing: a vector that it fails on is left as it was. -/
def settled (v : FixedVec α cap) : Except Fault (FixedVec α cap) → Answer α × FixedVec α cap
  | .ok w => (.ok none, w)
  | .error fault => (.error fault, v)

/-- Serves a request on a vector. -/
def serve (v : FixedVec α cap) : VecRequest α → Answer α × FixedVec α cap
  | .push x => v.settled (v.push x)
  | .pop =>
    match v.pop? with
    | some (x, w) => (.ok (some x), w)
    | none => (.ok none, v)
  | .ensure count => v.settled ((v.ensure count).map fun _ => v)
  | .resize length x => v.settled (v.resize length x)
  | .extend xs => v.settled (v.extend xs)
  | .truncate length => (.ok none, v.truncate length)
  | .clear => (.ok none, v.clear)
  | .set i x => (.ok none, v.set i x)
  | .edit change => (.ok none, v.overwrite 0 (change.apply v.toList))

/-- A request for more than there is room for changes nothing. -/
theorem serve_refused {request : VecRequest α} (h : cap < request.needs v.toList) :
    v.serve request = (.error request.refusal, v) := by
  have hle := v.length_le
  cases request with
  | push x =>
    rw [needs_push, length_toList] at h
    rw [serve, push, if_neg (by omega)]
    rfl
  | ensure count =>
    rw [needs_ensure, length_toList] at h
    rw [serve, ensure, free, if_neg (by omega)]
    rfl
  | resize length x =>
    rw [needs_resize] at h
    rw [serve, resize, if_pos h]
    rfl
  | extend xs =>
    rw [needs_extend, length_toList] at h
    rw [serve, extend, free, if_neg (by omega)]
    rfl
  | pop | truncate | clear | set | edit =>
    -- these ask for no more than there is
    simp only [needs, onList, SliceEdit.length_apply, List.length_dropLast, List.length_take,
      List.length_set, List.length_nil, length_toList] at h
    omega

/-- Where there is room, a request does to the contents what it does to a list. -/
theorem serve_granted {request : VecRequest α} (h : request.needs v.toList ≤ cap) :
    (v.serve request).1 = .ok (request.onList v.toList).1 ∧
      (v.serve request).2.toList = (request.onList v.toList).2 := by
  cases request with
  | push x =>
    rw [needs_push, length_toList] at h
    rw [serve, push, if_pos (Nat.lt_of_succ_le h)]
    exact ⟨rfl, toList_put_of_lt h x⟩
  | pop =>
    rw [serve, pop?, last?_eq, onList]
    cases hlast : v.toList.getLast? with
    | none =>
      rw [List.getLast?_eq_none_iff] at hlast
      simp [hlast]
    | some x => exact ⟨rfl, toList_pop v⟩
  | ensure count =>
    rw [needs_ensure, length_toList] at h
    rw [serve, ensure, free, if_pos (by omega)]
    exact ⟨rfl, rfl⟩
  | resize length x =>
    rw [needs_resize] at h
    rw [serve, resize, if_neg (by omega), onList, length_toList]
    split
    · rename_i hshort
      rw [Nat.sub_eq_zero_of_le (Nat.le_of_lt hshort), List.replicate_zero, List.append_nil]
      exact ⟨rfl, toList_truncate v length⟩
    · rename_i hlong
      rw [List.take_of_length_le (by rw [length_toList]; omega)]
      exact ⟨rfl, toList_putAll_of_le (by rw [List.length_replicate, free]; omega)⟩
  | extend xs =>
    rw [needs_extend, length_toList] at h
    have hfits : xs.length ≤ v.free := by
      rw [free]
      omega
    rw [serve, extend, if_pos hfits]
    exact ⟨rfl, toList_putAll_of_le hfits⟩
  | truncate length => exact ⟨rfl, toList_truncate v length⟩
  | clear =>
    refine ⟨rfl, ?_⟩
    show v.clear.toList = []
    rw [clear_eq_empty, toList_empty]
  | set i x => exact ⟨rfl, toList_set v i x⟩
  | edit change =>
    have hlength : (change.apply v.toList).length = v.toList.length := change.length_apply _
    refine ⟨rfl, (toList_overwrite v 0 _ (by simp [hlength])).trans ?_⟩
    simp [onList, hlength]

/-- A vector serves a request as the list of its contents does. -/
theorem serve_toList (v : FixedVec α cap) (request : VecRequest α) :
    ((v.serve request).1, (v.serve request).2.toList) = serveList cap v.toList request := by
  unfold serveList
  split
  · rename_i hroom
    obtain ⟨hanswer, hcontents⟩ := serve_granted hroom
    rw [hanswer, hcontents]
  · rename_i hfull
    rw [serve_refused (Nat.lt_of_not_le hfull)]

/-! ### Equality -/

/-- Vectors are compared element by element, and only as far as they are in use. -/
theorem beq_iff [BEq α] : (v == w) = true ↔ v.length = w.length ∧
    ∀ i x y, v.get? i = some x → w.get? i = some y → (x == y) = true := by
  show v.toList.beq w.toList = true ↔ _
  rw [List.beq_eq_isEqv, List.isEqv_eq_decide, ← length_toList v, ← length_toList w]
  by_cases hlength : v.toList.length = w.toList.length
  · rw [dif_pos hlength, decide_eq_true_iff, and_iff_right hlength]
    refine ⟨fun h i x y hx hy => ?_, fun h i hi => ?_⟩
    · rw [get?_eq] at hx hy
      obtain ⟨hi, rfl⟩ := List.getElem?_eq_some_iff.mp hx
      obtain ⟨-, rfl⟩ := List.getElem?_eq_some_iff.mp hy
      exact h i hi
    · refine h i _ _ ?_ ?_ <;> rw [get?_eq, List.getElem?_eq_getElem]
  · rw [dif_neg hlength]
    exact ⟨fun h => absurd h Bool.false_ne_true, fun h => absurd h.1 hlength⟩

theorem beq_iff_toList_eq [BEq α] [LawfulBEq α] : (v == w) = true ↔ v.toList = w.toList := by
  show (v.toList == w.toList) = true ↔ _
  exact beq_iff_eq

/-! ### From the empty vector on -/

/-- The vector that is left when requests have been served, from the empty one on. -/
def after (cap : Nat) (requests : List (VecRequest α)) : FixedVec α cap :=
  (session serve empty requests).2

/-- The list that is left when the same has been asked of a list. -/
def listAfter (cap : Nat) (requests : List (VecRequest α)) : List α :=
  (session (serveList cap) [] requests).2

/-- After these requests a vector is what a list with a bound is after them: it has given the same
answers, of which none is a fault but for want of room, and has the same contents, within the bound
and with nothing left behind them.  Other requests lead to the same vector, slot by slot, exactly if
they lead to the same list. -/
structure RefinesList (cap : Nat) (requests : List (VecRequest α)) : Prop where
  answers : (session serve (empty : FixedVec α cap) requests).1
    = (session (serveList cap) [] requests).1
  faults : ∀ fault, .error fault ∈ (session serve (empty : FixedVec α cap) requests).1 →
    fault.category = .capacity
  contents : (after cap requests).toList = listAfter cap requests
  length_le : (listAfter cap requests).length ≤ cap
  unused : ∀ i (h : i < cap), (listAfter cap requests).length ≤ i →
    (after cap requests).slots[i] = default
  determined : ∀ others, after cap others = after cap requests ↔
    listAfter cap others = listAfter cap requests

theorem session_toList (requests : List (VecRequest α)) :
    ((session serve (empty : FixedVec α cap) requests).1, (after cap requests).toList)
      = session (serveList cap) [] requests := by
  have hsession := session_view toList serve_toList (empty : FixedVec α cap) requests
  rwa [toList_empty] at hsession

theorem toList_after (requests : List (VecRequest α)) :
    (after cap requests).toList = listAfter cap requests :=
  congrArg Prod.snd (session_toList requests)

theorem refinesList (cap : Nat) (requests : List (VecRequest α)) : RefinesList cap requests := by
  have hanswers : (session serve (empty : FixedVec α cap) requests).1
      = (session (serveList cap) [] requests).1 := congrArg Prod.fst (session_toList requests)
  have hcontents : (after cap requests).toList = listAfter cap requests := toList_after requests
  have hlength : (listAfter cap requests).length = (after cap requests).length := by
    rw [← hcontents, length_toList]
  refine ⟨hanswers, fun fault hfault => ?_, hcontents, ?_, fun i hi hle => ?_, fun others => ?_⟩
  · rw [hanswers] at hfault
    exact category_of_error hfault
  · rw [hlength]
    exact (after cap requests).length_le
  · exact (after cap requests).unused i hi (hlength ▸ hle)
  · rw [← toList_after, ← hcontents]
    exact ⟨congrArg toList, ext⟩

/-- A vector of fixed capacity is a list with a bound: for every type of elements, every capacity
and every sequence of requests, and so at every moment of one, it gives the answers of the list and
has its contents.  Two vectors are equal exactly if their contents are, element by element, whatever
the slots behind them hold; where equality of elements is the identity, exactly if the lists are the
same. -/
theorem refines_bounded_list :
    (∀ (α : Type) [Inhabited α] (cap : Nat) (requests : List (VecRequest α)),
      RefinesList cap requests) ∧
    (∀ (α : Type) [Inhabited α] [BEq α] (cap : Nat) (v w : FixedVec α cap), (v == w) = true ↔
      v.length = w.length ∧
        ∀ i x y, v.get? i = some x → w.get? i = some y → (x == y) = true) ∧
    (∀ (α : Type) [Inhabited α] [BEq α] [LawfulBEq α] (cap : Nat) (v w : FixedVec α cap),
      (v == w) = true ↔ v.toList = w.toList) :=
  ⟨fun _ _ => refinesList, fun _ _ _ _ _ _ => beq_iff, fun _ _ _ _ _ _ _ => beq_iff_toList_eq⟩

/-- Both elements of the first vector have been given up again, one by `pop` and one by
`truncate`, after a third was refused; the second has never held any but the seven. -/
theorem emptied_eq_fresh : ∃ v w : FixedVec UInt8 2,
    v = after 2 [.push 1, .extend [2], .push 3, .pop, .truncate 0, .resize 1 7] ∧
    w = after 2 [.ensure 2, .push 7] ∧
    (session serve (empty : FixedVec UInt8 2) [.push 1, .extend [2], .push 3, .pop]).1
      = [.ok none, .ok none, .error .tableFull, .ok (some 2)] ∧
    v.toList = [7] ∧ v = w ∧ (v == w) = true := by
  obtain ⟨hrefines, -, hequal⟩ := refines_bounded_list
  have hv := hrefines UInt8 2 [.push 1, .extend [2], .push 3, .pop, .truncate 0, .resize 1 7]
  have hw := hrefines UInt8 2 [.ensure 2, .push 7]
  have hlist : (listAfter 2 [.push 1, .extend [2], .push 3, .pop, .truncate 0, .resize 1 7] :
      List UInt8) = [7] := rfl
  have hlist' : (listAfter 2 [.ensure 2, .push 7] : List UInt8) = [7] := rfl
  refine ⟨_, _, rfl, rfl, ?_, ?_, ?_, ?_⟩
  · exact (hrefines UInt8 2 _).answers.trans rfl
  · rw [hv.contents, hlist]
  · exact (hw.determined _).mpr (hlist.trans hlist'.symm)
  · exact (hequal UInt8 2 _ _).mpr (by rw [hv.contents, hw.contents, hlist, hlist'])

end FixedVec

end BoundedWasm
