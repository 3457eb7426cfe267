import Mathlib.Tactic.Common

/-!
# The notifier

`src/notifier.c`: a pipe that the workers write to and the connection process reads
from. Both ends are non-blocking. What the bytes are does not matter.
-/

namespace Verben

/-- `sizeof(buffer)`. -/
def notifierBufferSize : Nat := 1024

/-- A pipe with room for `size` bytes, of which `held` are there. -/
structure Pipe : Type where
  size : Nat
  held : Nat
  positive : 0 < size
  fits : held ≤ size

/-- An empty pipe. -/
def notifierCreate (size : Nat) (positive : 0 < size) : Pipe := ⟨size, 0, positive, Nat.zero_le _⟩

/-- `notifier_write` writes one byte; a full pipe takes none. -/
def notifierWrite (p : Pipe) : Pipe :=
  if room : p.held < p.size then { p with held := p.held + 1, fits := room } else p

/-- `notifier_read` takes up to `sizeof(buffer)` bytes; it fails on an empty pipe. -/
def notifierRead (p : Pipe) : Option Pipe :=
  if 0 < p.held then
    some { p with
      held := p.held - notifierBufferSize, fits := Nat.le_trans (Nat.sub_le ..) p.fits }
  else
    none

/-- After a write there is a byte, whether or not the write had room. -/
theorem held_notifierWrite (p : Pipe) : 0 < (notifierWrite p).held := by
  unfold notifierWrite
  split
  · exact Nat.succ_pos _
  · next full => exact Nat.lt_of_lt_of_le p.positive (Nat.le_of_not_lt full)

end Verben
