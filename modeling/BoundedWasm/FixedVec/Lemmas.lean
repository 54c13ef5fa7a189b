import BoundedWasm.FixedVec

/-!
# BoundedWasm.FixedVec.Lemmas — every operation, seen through the contents

For each operation of a vector one equation that gives its contents afterwards as those of a plain
list: `toList_set`, `toList_putAll`, `toList_truncate`, `toList_slice`, `toList_overwrite`,
`toList_reverse` and `toList_keepEnds`. The last two groups follow from `put`, `pop` and `set`.
-/

namespace BoundedWasm.FixedVec

variable {α : Type} [Inhabited α] {cap : Nat}

theorem last?_eq (v : FixedVec α cap) : v.last? = v.toList.getLast? := by
  rw [List.getLast?_eq_getElem?, length_toList, last?]
  split
  · rename_i h
    rw [h, List.getElem?_eq_none (by simp [h])]
  · exact v.get?_eq _

theorem exists_get? {v : FixedVec α cap} {i : Nat} (h : i < v.length) : ∃ x, v.get? i = some x :=
  ⟨_, dif_pos h⟩

theorem toList_slice (v : FixedVec α cap) (start stop : Nat) :
    v.slice start stop = (v.toList.take stop).drop start := by
  unfold slice toList
  rw [Array.toList_extract, List.extract_eq_take_drop, List.take_take, List.drop_take]
  rfl

/-! ### Operations that keep the length -/

@[simp] theorem length_set (v : FixedVec α cap) (i : Nat) (x : α) :
    (v.set i x).length = v.length := by
  unfold set
  split <;> rfl

theorem toList_set (v : FixedVec α cap) (i : Nat) (x : α) :
    (v.set i x).toList = v.toList.set i x := by
  unfold set
  split
  · rename_i h
    simp only [toList, Vector.toList_set, List.take_set]
  · rename_i h
    rw [List.set_eq_of_length_le (by rw [length_toList]; exact Nat.le_of_not_lt h)]

theorem toList_overwrite (v : FixedVec α cap) (start : Nat) (xs : List α)
    (h : start + xs.length ≤ v.length) :
    (v.overwrite start xs).toList
      = v.toList.take start ++ xs ++ v.toList.drop (start + xs.length) := by
  induction xs generalizing v start with
  | nil => simp [overwrite]
  | cons x xs ih =>
    have hlt : start < v.toList.length := by
      rw [length_toList]
      exact Nat.lt_of_lt_of_le (by simp) h
    have hhead : (v.toList.set start x).take (start + 1) = v.toList.take start ++ [x] := by
      rw [List.take_add_one, List.take_set_of_le (Nat.le_refl _), List.getElem?_set_self hlt]
      rfl
    have htail : (v.toList.set start x).drop (start + 1 + xs.length)
        = v.toList.drop (start + (x :: xs).length) := by
      rw [List.drop_set_of_lt (by omega), List.length_cons, Nat.add_right_comm, Nat.add_assoc]
    rw [overwrite, ih _ _ (by rw [length_set]; simp at h; omega), toList_set, hhead, htail]
    simp

theorem toList_reverse (v : FixedVec α cap) : v.reverse.toList = v.toList.reverse := by
  rw [reverse, toList_overwrite _ _ _ (by simp)]
  simp

/-! ### Growing -/

theorem length_put (v : FixedVec α cap) (x : α) :
    (v.put x).length = if v.length < cap then v.length + 1 else v.length := by
  unfold put
  split <;> rfl

/-- Of the elements that are added, those that fit are at the end. -/
theorem toList_putAll (v : FixedVec α cap) (xs : List α) :
    (v.putAll xs).toList = v.toList ++ xs.take v.free := by
  induction xs generalizing v with
  | nil => simp [putAll]
  | cons x xs ih =>
    have hstep : v.putAll (x :: xs) = (v.put x).putAll xs := rfl
    rw [hstep, ih, toList_put]
    by_cases h : v.length < cap
    · have hfree : v.free = (v.put x).free + 1 := by
        rw [free, free, length_put, if_pos h]
        omega
      rw [if_pos h, hfree, List.take_succ_cons, List.append_assoc]
      rfl
    · have hfree : v.free = 0 := by
        rw [free]
        omega
      have hfree' : (v.put x).free = 0 := by
        rw [free, length_put, if_neg h]
        exact hfree
      rw [if_neg h, hfree, hfree']
      rfl

theorem toList_put_of_lt {v : FixedVec α cap} (h : v.length < cap) (x : α) :
    (v.put x).toList = v.toList ++ [x] := by
  rw [toList_put, if_pos h]

theorem take_put {v : FixedVec α cap} {count : Nat} (h : v.length < cap) (hle : count ≤ v.length)
    (x : α) : (v.put x).toList.take count = v.toList.take count := by
  rw [toList_put_of_lt h, List.take_append_of_le_length]
  rwa [length_toList]

theorem toList_putAll_of_le {v : FixedVec α cap} {xs : List α} (h : xs.length ≤ v.free) :
    (v.putAll xs).toList = v.toList ++ xs := by
  rw [toList_putAll, List.take_of_length_le h]

theorem toList_putAll_empty {xs : List α} (h : xs.length ≤ cap) :
    ((empty : FixedVec α cap).putAll xs).toList = xs := by
  have hfree : xs.length ≤ (empty : FixedVec α cap).free := h
  rw [toList_putAll_of_le hfree, toList_empty, List.nil_append]

theorem toList_of_push {v w : FixedVec α cap} {x : α} (h : v.push x = .ok w) :
    w.toList = v.toList ++ [x] := by
  unfold push at h
  split at h
  · rename_i hlt
    cases h
    exact toList_put_of_lt hlt x
  · cases h

theorem toList_of_extend {v w : FixedVec α cap} {xs : List α} (h : v.extend xs = .ok w) :
    w.toList = v.toList ++ xs := by
  unfold extend at h
  split at h
  · rename_i hle
    cases h
    exact toList_putAll_of_le hle
  · cases h

theorem length_eq_of_toList {v w : FixedVec α cap} (h : v.toList = w.toList) :
    v.length = w.length := by
  rw [← length_toList, h, length_toList]

/-! ### Shrinking -/

@[simp] theorem length_pop (v : FixedVec α cap) : v.pop.length = v.length - 1 := by
  unfold pop
  split
  · rename_i h
    rw [h]
  · rfl

theorem take_pop {v : FixedVec α cap} {count : Nat} (hlt : count < v.length) :
    v.pop.toList.take count = v.toList.take count := by
  rw [toList_pop, List.dropLast_eq_take, List.take_take, length_toList,
    Nat.min_eq_left (by omega)]

theorem toList_truncate (v : FixedVec α cap) (length : Nat) :
    (v.truncate length).toList = v.toList.take length := by
  obtain ⟨n, hn⟩ : ∃ n, v.length - length = n := ⟨_, rfl⟩
  induction n generalizing v with
  | zero =>
    have hle : v.toList.length ≤ length := by
      rw [length_toList]
      omega
    rw [truncate, hn, List.take_of_length_le hle]
    rfl
  | succ n ih =>
    have hstep : v.truncate length = v.pop.truncate length := by
      rw [truncate, truncate, length_pop, hn, show v.length - 1 - length = n by omega]
      exact Nat.recOn n rfl fun k hk => congrArg pop hk
    rw [hstep, ih v.pop (by rw [length_pop]; omega), toList_pop, List.dropLast_eq_take,
      length_toList, List.take_take, Nat.min_eq_left (by omega)]

@[simp] theorem clear_eq_empty (v : FixedVec α cap) : v.clear = empty :=
  ext (by rw [clear, toList_truncate, List.take_zero, toList_empty])

theorem toList_keepEnds (v : FixedVec α cap) (base count : Nat) (h : base + count ≤ v.length) :
    (v.keepEnds base count).toList = v.toList.take base ++ v.toList.drop (v.length - count) := by
  have hslice : v.slice (v.length - count) v.length = v.toList.drop (v.length - count) := by
    rw [toList_slice, List.take_of_length_le (by simp)]
  have hcount : (v.toList.drop (v.length - count)).length = count := by
    rw [List.length_drop, length_toList]
    omega
  rw [keepEnds, hslice, toList_truncate, toList_overwrite _ _ _ (by omega), List.take_left']
  rw [List.length_append, List.length_take, length_toList, hcount]
  omega

end BoundedWasm.FixedVec
