import Mathlib.Algebra.Ring.Nat
import Mathlib.Tactic.Common

/-!
Byte formats that are read from the front of a byte string: little-endian words, compact
sizes and sequences of fields.
-/

namespace ByteCodec

open List

def littleEndian : Nat → Nat → List UInt8
  | 0, _ => []
  | width + 1, value => UInt8.ofNat value :: littleEndian width (value / 256)

def ofLittleEndian : List UInt8 → Nat
  | [] => 0
  | byte :: rest => byte.toNat + 256 * ofLittleEndian rest

theorem length_littleEndian (width value : Nat) : (littleEndian width value).length = width := by
  induction width generalizing value with
  | zero => rfl
  | succ width ih => exact congrArg (· + 1) (ih _)

theorem ofLittleEndian_littleEndian {width value : Nat} (small : value < 256 ^ width) :
    ofLittleEndian (littleEndian width value) = value := by
  induction width generalizing value with
  | zero =>
    have none : value = 0 := Nat.lt_one_iff.mp small
    exact none.symm
  | succ width ih =>
    have rest : value / 256 < 256 ^ width := by
      rw [Nat.pow_succ] at small
      exact Nat.div_lt_of_lt_mul (by rwa [Nat.mul_comm])
    have first : (UInt8.ofNat value).toNat = value % 256 := rfl
    rw [littleEndian, ofLittleEndian, ih rest, first]
    omega

structure Codec (Value : Type) where
  write : Value → List UInt8
  read : List UInt8 → Option (Value × List UInt8)
  read_write : ∀ value rest, read (write value ++ rest) = some (value, rest)

namespace Codec

variable {First Second : Type}

def pair (first : Codec First) (second : Codec Second) : Codec (First × Second) where
  write value := first.write value.1 ++ second.write value.2
  read bytes := do
    let (left, after) ← first.read bytes
    let (right, rest) ← second.read after
    return ((left, right), rest)
  read_write value rest := by
    rw [List.append_assoc, first.read_write]
    dsimp only [Option.bind_eq_bind, Option.bind_some]
    rw [second.read_write]
    rfl

def readWord (width : Nat) (bytes : List UInt8) : Option (Nat × List UInt8) :=
  if width ≤ bytes.length then some (ofLittleEndian (bytes.take width), bytes.drop width) else none

theorem readWord_littleEndian {width value : Nat} (small : value < 256 ^ width)
    (rest : List UInt8) : readWord width (littleEndian width value ++ rest) = some (value, rest) := by
  have length := length_littleEndian width value
  have enough : width ≤ (littleEndian width value ++ rest).length := by
    rw [length_append, length]
    exact Nat.le_add_right _ _
  unfold readWord
  rw [if_pos enough, take_left' length, drop_left' length,
    ofLittleEndian_littleEndian small]

theorem toNat_lt_bytes (width : Nat) (word : BitVec (8 * width)) : word.toNat < 256 ^ width := by
  have bounded := word.isLt
  rwa [Nat.pow_mul] at bounded

def word (width : Nat) : Codec (BitVec (8 * width)) where
  write value := littleEndian width value.toNat
  read bytes := (readWord width bytes).map fun found => (BitVec.ofNat _ found.1, found.2)
  read_write value rest := by
    rw [readWord_littleEndian (toNat_lt_bytes width value), Option.map_some,
      BitVec.ofNat_toNat, BitVec.setWidth_eq]

/-- A number behind its width: one byte up to 252, else a marker and two, four or eight bytes. -/
def writeCompact (value : Nat) : List UInt8 :=
  if value ≤ 0xfc then littleEndian 1 value
  else if value ≤ 0xffff then 0xfd :: littleEndian 2 value
  else if value ≤ 0xffffffff then 0xfe :: littleEndian 4 value
  else 0xff :: littleEndian 8 value

def readCompact : List UInt8 → Option (Nat × List UInt8)
  | [] => none
  | marker :: rest =>
    if marker.toNat ≤ 0xfc then some (marker.toNat, rest)
    else if marker = 0xfd then readWord 2 rest
    else if marker = 0xfe then readWord 4 rest
    else readWord 8 rest

theorem readCompact_writeCompact {value : Nat} (small : value < 2 ^ 64) (rest : List UInt8) :
    readCompact (writeCompact value ++ rest) = some (value, rest) := by
  unfold writeCompact
  split
  next isByte =>
    have byte : (UInt8.ofNat value).toNat = value := UInt8.toNat_ofNat_of_lt (by
      change value < 256
      omega)
    rw [littleEndian, littleEndian, singleton_append, readCompact, byte, if_pos isByte]
  split
  · rw [cons_append, readCompact, if_neg (by decide), if_pos rfl,
      readWord_littleEndian (by omega)]
  split
  · rw [cons_append, readCompact, if_neg (by decide), if_neg (by decide), if_pos rfl,
      readWord_littleEndian (by omega)]
  · rw [cons_append, readCompact, if_neg (by decide), if_neg (by decide),
      if_neg (by decide), readWord_littleEndian (by omega)]

def compact : Codec (BitVec 64) where
  write value := writeCompact value.toNat
  read bytes := (readCompact bytes).map fun found => (BitVec.ofNat _ found.1, found.2)
  read_write value rest := by
    rw [readCompact_writeCompact value.isLt, Option.map_some, BitVec.ofNat_toNat,
      BitVec.setWidth_eq]

end Codec

end ByteCodec
