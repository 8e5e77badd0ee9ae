import Mathlib.Data.Fintype.Basic

/-!
# Hash values and the two merge rules (metadata_utils.rs:19–60)

The type-hash engine works on 32-byte hashes `[u8; 32]`, here `Hash := Fin 32 → UInt8`.
The underlying hash function (`twox_256` in the source) is not part of this crate: every
definition that hashes bytes takes it as an argument `hash : List UInt8 → Hash`, and every
theorem quantifies over it.

- `xor`: byte-wise XOR of two hashes. It is an involution (`xor_cancel_left`), which is
  exactly how the XOR merges of the engine can cancel.
- `hashHashes`: concatenate two hashes and rehash: the order-sensitive merge.
- `TypeBeingHashed`: the `#[repr(u8)]` tag bytes of the eight type-def kinds.
-/

namespace EventListener

/-- A 32-byte hash, `[u8; 32]`. -/
abbrev Hash := Fin 32 → UInt8

/-- The all-zero hash, the unit of `xor`. -/
def zeroHash : Hash := fun _ => 0

/-- `xor` (metadata_utils.rs:42): byte-wise XOR of two hashes. -/
def xor (a b : Hash) : Hash := fun i => a i ^^^ b i

/-- `hash_hashes` (metadata_utils.rs:54): the 64 bytes `a ++ b`, hashed. -/
def hashHashes (hash : List UInt8 → Hash) (a b : Hash) : Hash :=
  hash (List.ofFn a ++ List.ofFn b)

/-- `str::as_bytes`: the UTF-8 encoding of a name. -/
def asBytes (s : String) : List UInt8 := s.toUTF8.data.toList

/-- `TypeBeingHashed` (metadata_utils.rs:22): one tag byte per type-def kind. -/
inductive TypeBeingHashed where
  | composite | variant | sequence | array | tuple | primitive | compact | bitSequence
  deriving DecidableEq, Repr

/-- `TypeBeingHashed as u8`: the declaration order of the `#[repr(u8)]` enum. -/
def TypeBeingHashed.toU8 : TypeBeingHashed → UInt8
  | .composite => 0
  | .variant => 1
  | .sequence => 2
  | .array => 3
  | .tuple => 4
  | .primitive => 5
  | .compact => 6
  | .bitSequence => 7

/-! ## XOR algebra -/

theorem xor_comm (a b : Hash) : xor a b = xor b a :=
  funext fun _ => UInt8.eq_of_toBitVec_eq (BitVec.xor_comm _ _)

theorem xor_assoc (a b c : Hash) : xor (xor a b) c = xor a (xor b c) :=
  funext fun _ => UInt8.eq_of_toBitVec_eq (BitVec.xor_assoc _ _ _)

@[simp] theorem xor_self (a : Hash) : xor a a = zeroHash :=
  funext fun _ => UInt8.eq_of_toBitVec_eq BitVec.xor_self

@[simp] theorem zeroHash_xor (a : Hash) : xor zeroHash a = a :=
  funext fun _ => UInt8.eq_of_toBitVec_eq BitVec.zero_xor

@[simp] theorem xor_zeroHash (a : Hash) : xor a zeroHash = a := by
  rw [xor_comm, zeroHash_xor]

/-- XORing the same hash in twice cancels it. -/
@[simp] theorem xor_cancel_left (a b : Hash) : xor a (xor a b) = b := by
  rw [← xor_assoc, xor_self, zeroHash_xor]

/-- Two XORed operands can be swapped. -/
theorem xor_right_comm (a b c : Hash) : xor (xor a b) c = xor (xor a c) b := by
  rw [xor_assoc, xor_comm b, ← xor_assoc]

end EventListener
