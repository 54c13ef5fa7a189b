import BoundedWasm.Fault

/-!
# BoundedWasm.FixedVec — vectors of fixed capacity

`FixedVec α cap` has `cap` slots and a length; the first `length` slots are its contents, read
through `toList`, and the slots behind them hold the default value. Every growing operation is `put`
repeated and every shrinking one is `pop` repeated, so each law about the contents (`toList_put`,
`toList_pop`, …) comes from those two. A slot that `pop` leaves is set back to the default value, so
that a vector is known by its contents (`ext`).
-/

namespace BoundedWasm

structure FixedVec (α : Type) [Inhabited α] (cap : Nat) where
  slots : Vector α cap
  length : Nat
  length_le : length ≤ cap
  unused : ∀ i (h : i < cap), length ≤ i → slots[i] = default

namespace FixedVec

variable {α : Type} [Inhabited α] {cap : Nat}

def empty : FixedVec α cap :=
  ⟨Vector.replicate cap default, 0, Nat.zero_le _, fun _ _ _ => Vector.getElem_replicate _⟩

instance : Inhabited (FixedVec α cap) := ⟨empty⟩

instance : EmptyCollection (FixedVec α cap) := ⟨empty⟩

/-- The contents, first to last. -/
def toList (v : FixedVec α cap) : List α :=
  v.slots.toList.take v.length

def capacity (_ : FixedVec α cap) : Nat := cap

/-- How many more elements fit. -/
def free (v : FixedVec α cap) : Nat := cap - v.length

def isEmpty (v : FixedVec α cap) : Bool := v.length == 0

/-- The element at `i`, if `i` is below the length. -/
def get? (v : FixedVec α cap) (i : Nat) : Option α :=
  if h : i < v.length then some (v.slots.get ⟨i, Nat.lt_of_lt_of_le h v.length_le⟩) else none

def last? (v : FixedVec α cap) : Option α :=
  if v.length = 0 then none else v.get? (v.length - 1)

/-- The elements at `start ≤ i < stop`, as far as there are any. -/
def slice (v : FixedVec α cap) (start stop : Nat) : List α :=
  (v.slots.toArray.extract start (min stop v.length)).toList

/-- The contents in brackets, each element as `render` writes it. -/
def describe (render : α → String) (v : FixedVec α cap) : String :=
  "[" ++ ", ".intercalate (v.toList.map render) ++ "]"

/-- Two vectors are equal when their contents are; unused slots do not count. -/
instance [BEq α] : BEq (FixedVec α cap) := ⟨fun v w => v.toList == w.toList⟩

/-! ### Operations that keep the length -/

/-- Writes the element at `i`; nothing happens beyond the length. -/
def set (v : FixedVec α cap) (i : Nat) (x : α) : FixedVec α cap :=
  if h : i < v.length then
    { v with
      slots := v.slots.set i x (Nat.lt_of_lt_of_le h v.length_le)
      unused := fun k hk hle => by
        rw [Vector.getElem_set_ne _ _ (by omega)]
        exact v.unused k hk hle }
  else v

/-- Writes `xs` over the contents, element by element, starting at `start`. -/
def overwrite (v : FixedVec α cap) (start : Nat) : List α → FixedVec α cap
  | [] => v
  | x :: xs => overwrite (v.set start x) (start + 1) xs

def reverse (v : FixedVec α cap) : FixedVec α cap :=
  v.overwrite 0 v.toList.reverse

/-! ### Growing -/

/-- Adds an element at the end; a full vector stays as it is. -/
def put (v : FixedVec α cap) (x : α) : FixedVec α cap :=
  if h : v.length < cap then
    { slots := v.slots.set v.length x h
      length := v.length + 1
      length_le := h
      unused := fun i hi hle => by
        rw [Vector.getElem_set_ne _ _ (by omega)]
        exact v.unused i hi (by omega) }
  else v

/-- Adds elements at the end, as many as fit. -/
def putAll (v : FixedVec α cap) (xs : List α) : FixedVec α cap :=
  xs.foldl put v

/-- Adds an element at the end, or reports that the vector is full. -/
def push (v : FixedVec α cap) (x : α) : Except Fault (FixedVec α cap) :=
  if v.length < cap then .ok (v.put x) else .error .tableFull

/-- Asks for room for `count` more elements. -/
def ensure (v : FixedVec α cap) (count : Nat) : Except Fault Unit :=
  if count ≤ v.free then .ok () else .error .vectorTooLong

/-- Adds all of `xs` at the end, or none of them when they do not all fit. -/
def extend (v : FixedVec α cap) (xs : List α) : Except Fault (FixedVec α cap) :=
  if xs.length ≤ v.free then .ok (v.putAll xs) else .error .vectorTooLong

/-! ### Shrinking -/

/-- Drops the last element, and clears its slot. -/
def pop (v : FixedVec α cap) : FixedVec α cap :=
  if h : v.length = 0 then v
  else
    have hlt : v.length - 1 < cap := by
      have := v.length_le
      omega
    { slots := v.slots.set (v.length - 1) default hlt
      length := v.length - 1
      length_le := Nat.le_of_lt hlt
      unused := fun i hi hle => by
        -- the slot that is given up is cleared, and those behind it were not in use before
        by_cases hlast : v.length - 1 = i
        · subst hlast
          exact Vector.getElem_set_self _
        · rw [Vector.getElem_set_ne _ _ hlast]
          exact v.unused i hi (by omega) }

/-- The last element and the vector without it. -/
def pop? (v : FixedVec α cap) : Option (α × FixedVec α cap) :=
  v.last?.map fun x => (x, v.pop)

/-- Drops elements from the end until at most `length` are left. -/
def truncate (v : FixedVec α cap) (length : Nat) : FixedVec α cap :=
  Nat.repeat pop (v.length - length) v

def clear (v : FixedVec α cap) : FixedVec α cap := v.truncate 0

/-- Sets the length: drops elements from the end, or adds copies of `x`. -/
def resize (v : FixedVec α cap) (length : Nat) (x : α) : Except Fault (FixedVec α cap) :=
  if cap < length then .error .tableFull
  else if length < v.length then .ok (v.truncate length)
  else .ok (v.putAll (List.replicate (length - v.length) x))

/-- Keeps the elements below `base` and the last `count`, and drops those between them: the last
ones are copied down, and what is behind the copies is dropped. -/
def keepEnds (v : FixedVec α cap) (base count : Nat) : FixedVec α cap :=
  (v.overwrite base (v.slice (v.length - count) v.length)).truncate (base + count)

/-! ### Laws of the contents -/

@[simp] theorem length_toList (v : FixedVec α cap) : v.toList.length = v.length := by
  simp [toList, v.length_le]

theorem get?_eq (v : FixedVec α cap) (i : Nat) : v.get? i = v.toList[i]? := by
  unfold get? toList
  split
  · rename_i h
    have := Nat.lt_of_lt_of_le h v.length_le
    simp [h, this]
    rfl
  · rename_i h
    rw [List.getElem?_take, if_neg h]

/-- A vector is known by its contents. -/
@[ext] theorem ext {v w : FixedVec α cap} (h : v.toList = w.toList) : v = w := by
  have hlength : v.length = w.length := by rw [← length_toList, h, length_toList]
  have hslots : v.slots = w.slots := by
    refine Vector.ext fun i hi => ?_
    by_cases hlt : i < v.length
    · have hget : v.get? i = w.get? i := by rw [get?_eq, get?_eq, h]
      rw [get?, get?, dif_pos hlt, dif_pos (hlength ▸ hlt)] at hget
      exact Option.some.inj hget
    · rw [v.unused i hi (by omega), w.unused i hi (by omega)]
  cases v
  cases w
  cases hlength
  cases hslots
  rfl

theorem toList_put (v : FixedVec α cap) (x : α) :
    (v.put x).toList = if v.length < cap then v.toList ++ [x] else v.toList := by
  unfold put
  split
  · rename_i h
    apply List.ext_getElem?
    intro i
    simp only [toList, Vector.toList_set, List.getElem?_take, List.getElem?_append,
      List.length_take, Vector.length_toList, Nat.min_eq_left v.length_le]
    by_cases h1 : i < v.length
    · have h2 : v.length ≠ i := by omega
      simp [h1, Nat.lt_succ_of_lt h1, List.getElem?_set_ne h2]
    · by_cases h2 : i = v.length
      · subst h2
        simp [h]
      · have h3 : ¬ i < v.length + 1 := by omega
        have h4 : i - v.length ≠ 0 := by omega
        simp [h1, h3, h4]
  · rfl

theorem toList_pop (v : FixedVec α cap) : v.pop.toList = v.toList.dropLast := by
  unfold pop
  split
  · rename_i h
    simp [toList, h]
  · rename_i h
    apply List.ext_getElem?
    intro i
    simp only [toList, Vector.toList_set, List.getElem?_take, List.getElem?_dropLast,
      List.length_take, Vector.length_toList, Nat.min_eq_left v.length_le]
    by_cases h1 : i < v.length - 1
    · have h2 : v.length - 1 ≠ i := by omega
      have h3 : i < v.length := by omega
      simp [h1, List.getElem?_set_ne h2, h3]
    · simp [h1]

@[simp] theorem toList_empty : (empty : FixedVec α cap).toList = [] := by
  simp [toList, empty]

end FixedVec

end BoundedWasm
