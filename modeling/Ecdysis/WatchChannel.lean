/-
# Watch channels

General infrastructure: a channel that keeps the last value sent and the number of values
sent.  A receiver remembers how many of them it has seen; values that were sent and
overtaken before it looked are never seen.  The sender can go away, and what was sent last
stays.

`changed` is what becomes of waiting for a value that has not been seen: such a value counts
even when the sender is gone.  A `WatchStream` turns a receiver into a stream that yields
the current value first, and from then on the last value whenever it has not been seen.

These are `tokio::sync::watch` and its `Receiver::changed`, and the `WatchStream` of
`tokio_stream`, as their documentation describes them; that they do so is taken as given.
-/
import Mathlib

/-- A watch channel: the last value, the number of values sent after the first, and whether
the sender is gone. -/
structure WatchChannel (α : Type*) where
  value : α
  version : ℕ
  closed : Bool

/-- A receiver: the number of values it has seen. -/
structure WatchReceiver where
  seen : ℕ
  deriving DecidableEq

/-- A stream over a receiver; `fresh` before it has yielded anything. -/
structure WatchStream where
  fresh : Bool
  rx : WatchReceiver

namespace WatchChannel

variable {α : Type*}

/-- A new channel, with its first value, which its receiver has seen. -/
def new (a : α) : WatchChannel α := ⟨a, 0, false⟩

/-- Send a value. -/
def send (c : WatchChannel α) (a : α) : WatchChannel α :=
  { c with value := a, version := c.version + 1 }

/-- The sender goes away. -/
def close (c : WatchChannel α) : WatchChannel α := { c with closed := true }

/-- What becomes of waiting for a change. -/
inductive Changed
  | pending
  | seen (rx : WatchReceiver)
  | closed

/-- Wait for a value that has not been seen: there is one, or the sender is gone, or it is
too early to tell. -/
def changed (c : WatchChannel α) (rx : WatchReceiver) : Changed :=
  if rx.seen ≠ c.version then .seen ⟨c.version⟩
  else if c.closed then .closed
  else .pending

/-- Poll a stream: `none` is pending, `some none` its end. -/
def pollStream (c : WatchChannel α) (s : WatchStream) : Option (Option (α × WatchStream)) :=
  if s.fresh then some (some (c.value, ⟨false, ⟨c.version⟩⟩))
  else
    match c.changed s.rx with
    | .pending => none
    | .seen rx => some (some (c.value, ⟨false, rx⟩))
    | .closed => some none

variable {c : WatchChannel α} {rx rx' : WatchReceiver} {s s' : WatchStream} {a : α}

theorem changed_eq_seen (h : c.changed rx = .seen rx') :
    rx.seen ≠ c.version ∧ rx' = ⟨c.version⟩ := by
  unfold changed at h
  split at h
  · rename_i hne
    cases h
    exact ⟨hne, rfl⟩
  · split at h <;> cases h

theorem changed_of_ne (h : rx.seen ≠ c.version) : c.changed rx = .seen ⟨c.version⟩ := by
  rw [changed, if_pos h]

theorem changed_of_eq (h : rx.seen = c.version) :
    c.changed rx = if c.closed then .closed else .pending := by
  rw [changed, if_neg (not_not.mpr h)]

theorem changed_eq_closed (h : c.changed rx = .closed) :
    rx.seen = c.version ∧ c.closed = true := by
  unfold changed at h
  split at h
  · cases h
  · rename_i heq
    split at h
    · rename_i hclosed
      exact ⟨not_not.mp heq, hclosed⟩
    · cases h

/-- A stream that yields, yields the last value and has seen it. -/
theorem pollStream_eq_some (h : c.pollStream s = some (some (a, s'))) :
    a = c.value ∧ s' = ⟨false, ⟨c.version⟩⟩ := by
  unfold pollStream at h
  split at h
  · cases h
    exact ⟨rfl, rfl⟩
  · split at h
    · cases h
    · rename_i rx hrx
      cases h
      obtain ⟨-, rfl⟩ := changed_eq_seen hrx
      exact ⟨rfl, rfl⟩
    · cases h

/-- A stream that does not yield has yielded before and seen the last value. -/
theorem pollStream_ne_some (h : ∀ a s', c.pollStream s ≠ some (some (a, s'))) :
    s.fresh = false ∧ s.rx.seen = c.version := by
  unfold pollStream at h
  cases hfresh : s.fresh with
  | true =>
    simp only [hfresh, if_true] at h
    exact absurd rfl (h _ _)
  | false =>
    refine ⟨rfl, ?_⟩
    by_contra hne
    simp only [hfresh, Bool.false_eq_true, if_false, changed_of_ne hne] at h
    exact h _ _ rfl

/-- A stream that has yielded the last value has nothing more to yield for now. -/
theorem pollStream_seen (rx : WatchReceiver) (h : rx.seen = c.version) :
    c.pollStream ⟨false, rx⟩ = if c.closed then some none else none := by
  simp only [pollStream, Bool.false_eq_true, if_false, changed_of_eq h]
  cases c.closed <;> rfl

end WatchChannel
