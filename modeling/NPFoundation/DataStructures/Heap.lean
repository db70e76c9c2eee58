import NPFoundation.Lib.ImplicitTree

/-!
# `Heap<T>`: a binary heap over a vector

The element type is anything with two comparisons, `operator<` and `operator>`; they
are parameters, and nothing here assumes that they have to do with each other or that
they order anything.

`storage[i]` on a vector is undefined outside its bounds, so every access goes through
`storage[i]?` and the functions answer `none` when one misses. That no access ever does
is then a theorem about them and not a convention of the model. Indices are natural
numbers: the `int64_t` of the source never goes below `-1`, which only ends the loop in
`build`, and cannot overflow on a vector that fits in an address space.
-/

namespace NPFoundation

open ImplicitTree

inductive HeapType where
  | max
  | min
  deriving DecidableEq, Repr

/-- `Heap<T>`. -/
structure Heap (α : Type) where
  storage : List α
  type : HeapType
  deriving DecidableEq, Repr

namespace Heap

variable {α : Type}

/-- `Heap(HeapType type)`: an empty heap. -/
def empty (type : HeapType) : Heap α := { storage := [], type := type }

def size (h : Heap α) : Nat := h.storage.length

def clear (h : Heap α) : Heap α := { h with storage := [] }

def top (h : Heap α) : Option α := h.storage[0]?

abbrev parentIndex (idx : Nat) : Nat := parent idx

abbrev leftIndex (idx : Nat) : Nat := left idx

abbrev rightIndex (idx : Nat) : Nat := right idx

/-- `std::swap(storage[lhs], storage[rhs])`. -/
def swap (h : Heap α) (lhs rhs : Nat) : Option (Heap α) :=
  match h.storage[lhs]?, h.storage[rhs]? with
  | some a, some b => some { h with storage := (h.storage.set lhs b).set rhs a }
  | _, _ => none

section Comparisons

variable (lt gt : α → α → Bool)

def lessThan (h : Heap α) (lhs rhs : Nat) : Option Bool :=
  match h.storage[lhs]?, h.storage[rhs]? with
  | some a, some b => some (lt a b)
  | _, _ => none

def greaterThan (h : Heap α) (lhs rhs : Nat) : Option Bool :=
  match h.storage[lhs]?, h.storage[rhs]? with
  | some a, some b => some (gt a b)
  | _, _ => none

def comparator (h : Heap α) (lhs rhs : Nat) : Option Bool :=
  if h.type = .min then h.lessThan lt lhs rhs else h.greaterThan gt lhs rhs

/-- The position a turn of `heapify` moves to: `idx` itself when neither child beats it. -/
def nextIndex (h : Heap α) (idx size : Nat) : Option Nat :=
  match h.comparator lt gt (leftIndex idx) idx with
  | none => none
  | some beats =>
      let next := if beats then leftIndex idx else idx
      if rightIndex idx < size then
        match h.comparator lt gt (rightIndex idx) next with
        | none => none
        | some beats' => some (if beats' then rightIndex idx else next)
      else
        some next

/-- `next` is `idx` or one of its children. -/
theorem nextIndex_cases {h : Heap α} {idx size next : Nat}
    (hn : h.nextIndex lt gt idx size = some next) :
    next = idx ∨ next = leftIndex idx ∨ next = rightIndex idx := by
  unfold nextIndex at hn
  split at hn
  · exact absurd hn (by simp)
  · dsimp only at hn
    split at hn
    · split at hn
      · exact absurd hn (by simp)
      · rw [Option.some.injEq] at hn; subst hn
        split
        · exact Or.inr (Or.inr rfl)
        · split
          · exact Or.inr (Or.inl rfl)
          · exact Or.inl rfl
    · rw [Option.some.injEq] at hn; subst hn
      split
      · exact Or.inr (Or.inl rfl)
      · exact Or.inl rfl

/-- `heapify(idx, size)`: sift the element at `idx` down among the first `size`. -/
def heapify (h : Heap α) (idx size : Nat) : Option (Heap α) :=
  if leftIndex idx < size then
    match _ : h.nextIndex lt gt idx size with
    | none => none
    | some next =>
        if next ≠ idx then
          match h.swap idx next with
          | none => none
          | some h' => heapify h' next size
        else some h
  else some h
termination_by size - idx
decreasing_by
  have hcases := nextIndex_cases lt gt ‹_›
  simp only [leftIndex, rightIndex, left, right] at *
  omega

/-- The loop of `build`, from the index below `k` down to 0. -/
def buildFrom (h : Heap α) (size : Nat) : Nat → Option (Heap α)
  | 0 => some h
  | idx + 1 =>
      match h.heapify lt gt idx size with
      | none => none
      | some h' => buildFrom h' size idx

/-- `build()`, starting at the last internal node, `size / 2 - 1`. -/
def build (h : Heap α) : Option (Heap α) := h.buildFrom lt gt h.size (h.size / 2)

/-- `Heap(list, type)`. -/
def ofList (list : List α) (type : HeapType) : Option (Heap α) :=
  build lt gt { storage := list, type := type }

/-- `siftUp(idx)`. -/
def siftUp (h : Heap α) (idx : Nat) : Option (Heap α) :=
  if _ : 0 < idx then
    match h.comparator lt gt idx (parentIndex idx) with
    | none => none
    | some false => some h
    | some true =>
        match h.swap idx (parentIndex idx) with
        | none => none
        | some h' => siftUp h' (parentIndex idx)
  else some h
termination_by idx
decreasing_by exact parent_lt ‹0 < idx›

def push (h : Heap α) (value : α) : Option (Heap α) :=
  let appended : Heap α := { h with storage := h.storage ++ [value] }
  appended.siftUp lt gt (appended.size - 1)

/-- `storage[size]` moved out, and `pop_back()`. -/
def takeBack (h : Heap α) (size : Nat) : Option (Heap α × Option α) :=
  match h.storage[size]? with
  | none => none
  | some value => some ({ h with storage := h.storage.dropLast }, some value)

def pop (h : Heap α) : Option (Heap α × Option α) :=
  if h.size < 1 then some (h, none)
  else
    let size := h.size - 1
    if 0 < size then
      match h.swap 0 size with
      | none => none
      | some swapped =>
          match swapped.heapify lt gt 0 size with
          | none => none
          | some sifted => sifted.takeBack size
    else
      h.takeBack size

end Comparisons

end Heap

end NPFoundation
