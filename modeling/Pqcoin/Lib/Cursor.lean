import Mathlib.Data.List.Basic

/-! Copies from a buffer through an advancing position, as `memcpy` makes them. A copy that
reads outside the buffer, or writes outside the room of its destination, is a fault.
-/

namespace Cursor

variable {α β : Type}

inductive Fault where
  | read (pos count : Nat)
  | write (count room : Nat)
  deriving DecidableEq

/-- A sequence of copies, with the position as its state. -/
abbrev Copier (β : Type) := StateT Nat (Except Fault) β

def copy (buffer : List α) (count room : Nat) : Copier (List α) := fun pos =>
  if buffer.length < pos + count then .error (.read pos count)
  else if room < count then .error (.write count room)
  else .ok ((buffer.drop pos).take count, pos + count)

/-- No copy of the sequence is a fault. -/
def InBounds (copier : Copier β) (pos : Nat) : Prop :=
  ∃ result, copier.run pos = .ok result

theorem inBounds_pure (value : β) (pos) : InBounds (pure value) pos :=
  ⟨(value, pos), rfl⟩

/-- A sequence stays in bounds exactly when its first copy does and then the rest does. -/
theorem inBounds_copy_bind (buffer count room) (next : List α → Copier β) (pos)
    : InBounds (copy buffer count room >>= next) pos
      ↔ pos + count ≤ buffer.length ∧ count ≤ room
        ∧ InBounds (next ((buffer.drop pos).take count)) (pos + count) := by
  have run : (copy buffer count room >>= next).run pos
      = (copy buffer count room pos).bind (fun copied => (next copied.1).run copied.2) := rfl
  rw [InBounds, run, copy]
  split
  · rename_i outside
    simp only [Except.bind, reduceCtorEq, exists_false, false_iff]
    omega
  split
  · rename_i narrow
    simp only [Except.bind, reduceCtorEq, exists_false, false_iff]
    omega
  simp only [Except.bind]
  constructor
  · exact fun rest => ⟨by omega, by omega, rest⟩
  · exact fun rest => rest.2.2

/-- A copy in bounds leaves its elements and the position behind them to the rest. -/
theorem run_copy_bind {buffer} {count room pos}
    (read : pos + count ≤ buffer.length) (write : count ≤ room) (next : List α → Copier β)
    : (copy buffer count room >>= next).run pos
      = (next ((buffer.drop pos).take count)).run (pos + count) := by
  change (copy buffer count room pos).bind _ = _
  rw [copy, if_neg (by omega), if_neg (by omega)]
  rfl

theorem run_copy_bind_of_fault {buffer} {count room pos} {fault}
    (faulted : copy buffer count room pos = .error fault) (next : List α → Copier β)
    : (copy buffer count room >>= next).run pos = .error fault := by
  change (copy buffer count room pos).bind _ = _
  rw [faulted]
  rfl

end Cursor
