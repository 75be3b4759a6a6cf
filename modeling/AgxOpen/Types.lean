import AgxOpen.BitFields

/-! Word types, status codes and the field helpers of `agx/types.h`. -/
namespace AgxOpen

abbrev U8 := BitVec 8
abbrev U32 := BitVec 32
abbrev U64 := BitVec 64

/-- A host address. Zero is `NULL`. -/
abbrev Ptr := ℕ

/-- `AGX_BIT64`. -/
abbrev bit64 (n : ℕ) : U64 := BitVec.twoPow 64 n

/-- `AGX_FIELD_GET`. -/
def fieldGet (value : U64) (shift : ℕ) (mask : U64) : U64 := value >>> shift &&& mask

/-- `AGX_FIELD_PUT`. -/
def fieldPut (value : U64) (shift : ℕ) (mask : U64) : U64 := (value &&& mask) <<< shift

namespace Status

/-- `enum agx_status`. The kernel's own codes carry the same numbers. -/
def ok : ℤ := 0
def eio : ℤ := -5
def enomem : ℤ := -12
def eexist : ℤ := -17
def enodev : ℤ := -19
def einval : ℤ := -22
def enodata : ℤ := -61
def etimedout : ℤ := -110

end Status
end AgxOpen
