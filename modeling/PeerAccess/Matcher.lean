import PeerAccess.Address.Basic

/-!
# Matchers

What a pattern compiles to: a test on the octets of an address. A matcher carries its family only
by its length, so an address of another length never passes.
-/

namespace PeerAccess

inductive Matcher
  /-- These octets and no others. -/
  | exact (octets : Octets)
  /-- Octets as many as the mask's that equal `value` under `mask`. -/
  | masked (mask value : Octets)
deriving DecidableEq

namespace Matcher

/-- How many octets an address needs to have. -/
def size : Matcher → Nat
  | exact os => os.length
  | masked m _ => m.length

/-- A mask and a value of different lengths are compared as far as both reach. -/
def accepts : Matcher → Octets → Bool
  | exact os, x => os == x
  | masked m v, x =>
    x.length == m.length && (x.zip (m.zip v)).all fun (a, m, v) => a &&& m == v

theorem length_eq_size_of_accepts {m : Matcher} {x : Octets} (h : m.accepts x = true) :
    x.length = m.size := by
  cases m with
  | exact os => simp only [accepts, beq_iff_eq] at h; simp [size, h]
  | masked m v => simp only [accepts, Bool.and_eq_true, beq_iff_eq] at h; exact h.1

end Matcher

/-- An octet whose first `n` bits are set, all eight from `n = 8` on. -/
def leadingOctet (n : Nat) : UInt8 := UInt8.ofNat (256 - 1 <<< (8 - n))

/-- A mask of `size` octets whose first `n` bits are set. -/
def leadingMask : (size n : Nat) → Octets
  | 0, _ => []
  | size + 1, n => leadingOctet n :: leadingMask size (n - 8)

@[simp] theorem length_leadingMask (size n : Nat) : (leadingMask size n).length = size := by
  induction size generalizing n with
  | zero => rfl
  | succ size ih => simp [leadingMask, ih]

/-- Whether `value` has a bit that `mask` does not look at. -/
def hasBitOutside (mask value : Octets) : Bool :=
  (mask.zip value).any fun (m, v) => v &&& ~~~m != 0

end PeerAccess
