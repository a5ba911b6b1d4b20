import Mathlib.Data.List.Basic

/-! # Bounded channels — `tokio::sync::mpsc::channel(capacity)`

    A channel holds at most `capacity` messages in the order they were sent.
    The bound is a field, so a full channel cannot be overfilled.  The one
    rule the development uses: a sender that stops at the first full channel
    has sent a prefix, as long as the room there was
    (`items_sendUntilFull`). -/

/-- The messages in a channel, the oldest first. -/
structure Chan (α : Type) (capacity : Nat) where
  items : List α
  bounded : items.length ≤ capacity

namespace Chan

variable {α : Type} {capacity : Nat}

/-- A channel is what is in it. -/
@[ext] theorem ext {q q' : Chan α capacity} (h : q.items = q'.items) :
    q = q' := by
  cases q
  cases q'
  cases h
  rfl

/-- `mpsc::channel` -/
def empty : Chan α capacity := ⟨[], Nat.zero_le _⟩

@[simp] theorem items_empty : (empty : Chan α capacity).items = [] := rfl

/-- `try_send`; `none` is `TrySendError::Full`. -/
def trySend (q : Chan α capacity) (x : α) : Option (Chan α capacity) :=
  if h : q.items.length < capacity then
    some ⟨q.items ++ [x], by rw [List.length_append]; exact h⟩
  else none

/-- `recv`; `none` is a receiver that waits. -/
def recv (q : Chan α capacity) : Option (α × Chan α capacity) :=
  match q with
  | ⟨[], _⟩ => none
  | ⟨x :: xs, h⟩ => some (x, ⟨xs, Nat.le_of_succ_le h⟩)

/-- Send the messages one after the other until the channel is full. -/
def sendUntilFull (q : Chan α capacity) : List α → Chan α capacity
  | [] => q
  | x :: xs =>
      match q.trySend x with
      | some q => q.sendUntilFull xs
      | none => q

/-- A message goes in at the end, if there is room. -/
theorem trySend_eq_some {q q' : Chan α capacity} {x : α} :
    q.trySend x = some q' ↔
      q.items.length < capacity ∧ q'.items = q.items ++ [x] := by
  rw [trySend]
  split
  case isTrue h =>
    constructor
    · rintro hq
      cases hq
      exact ⟨h, rfl⟩
    · rintro ⟨_, hq⟩
      exact congrArg some (ext hq.symm)
  case isFalse h => exact iff_of_false nofun fun hq => h hq.1

/-- A message is refused by a full channel. -/
theorem trySend_eq_none {q : Chan α capacity} {x : α} :
    q.trySend x = none ↔ q.items.length = capacity := by
  have hle := q.bounded
  rw [trySend]
  split
  case isTrue h => exact iff_of_false nofun (Nat.ne_of_lt h)
  case isFalse h => exact iff_of_true rfl (by omega)

/-- The oldest message comes out. -/
theorem recv_eq_some {q q' : Chan α capacity} {x : α} :
    q.recv = some (x, q') ↔ q.items = x :: q'.items := by
  obtain ⟨items, hle⟩ := q
  cases items with
  | nil => exact iff_of_false nofun nofun
  | cons y ys =>
      constructor
      · rintro hq
        cases hq
        rfl
      · intro hq
        obtain ⟨rfl, rfl⟩ := List.cons.inj hq
        rfl

/-- **FULL**: what is sent before the channel is full is a prefix. -/
theorem items_sendUntilFull (q : Chan α capacity) (xs : List α) :
    (q.sendUntilFull xs).items
      = q.items ++ xs.take (capacity - q.items.length) := by
  induction xs generalizing q with
  | nil => rw [sendUntilFull, List.take_nil, List.append_nil]
  | cons x xs ih =>
      rw [sendUntilFull]
      cases hsend : q.trySend x with
      | none =>
          have hfull := trySend_eq_none.mp hsend
          rw [hfull, Nat.sub_self, List.take_zero, List.append_nil]
      | some q' =>
          obtain ⟨hroom, hitems⟩ := trySend_eq_some.mp hsend
          have hleft : capacity - q.items.length
              = (capacity - q'.items.length) + 1 := by
            rw [hitems, List.length_append, List.length_singleton]
            omega
          show (q'.sendUntilFull xs).items = _
          rw [ih, hleft, List.take_succ_cons, hitems, List.append_assoc]
          rfl

end Chan
