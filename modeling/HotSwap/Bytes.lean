/-! # Byte strings and big-endian numbers

A class file is a byte string in which every number is written with its most
significant byte first. A number of a given width is read as a natural number,
or in two's complement as an integer, and written back the same way. -/

namespace HotSwap

/-- A string of bytes. -/
abbrev Bytes := List UInt8

namespace Bytes

/-- The number whose base 256 digits are the given bytes. -/
def toNat (bytes : Bytes) : Nat :=
  bytes.foldl (fun number byte => number * 256 + byte.toNat) 0

/-- The number of byte strings of a length. -/
def capacity : Nat → Nat
  | 0 => 1
  | width + 1 => 256 * capacity width

/-- The two's complement number written in the given bytes. -/
def toInt (bytes : Bytes) : Int :=
  Int.bmod bytes.toNat (capacity bytes.length)

/-- The last `width` base 256 digits of a natural number. -/
def ofNat : Nat → Nat → Bytes
  | 0, _ => []
  | width + 1, number => UInt8.ofNat (number / capacity width) :: ofNat width number

/-- An integer in two's complement, cut down to `width` bytes. -/
def ofInt (width : Nat) (number : Int) : Bytes :=
  ofNat width (number % capacity width).toNat

/-- Whether an integer can be written in two's complement in `width` bytes. -/
def FitsInt (width : Nat) (number : Int) : Prop :=
  Int.bmod number (capacity width) = number

instance (width : Nat) (number : Int) : Decidable (FitsInt width number) :=
  inferInstanceAs (Decidable (_ = _))

/-- Two lower case hexadecimal digits for each byte. -/
def toHex (bytes : Bytes) : String :=
  String.ofList (bytes.flatMap fun byte =>
    [Nat.digitChar (byte.toNat / 16), Nat.digitChar (byte.toNat % 16)])

theorem capacity_pos (width : Nat) : 0 < capacity width := by
  induction width with
  | zero => decide
  | succ width ih =>
      rw [capacity]
      omega

theorem length_ofNat (width number : Nat) : (ofNat width number).length = width := by
  induction width with
  | zero => rfl
  | succ width ih => rw [ofNat, List.length_cons, ih]

theorem length_ofInt (width : Nat) (number : Int) : (ofInt width number).length = width :=
  length_ofNat _ _

private theorem foldl_digits (bytes : Bytes) (start : Nat) :
    bytes.foldl (fun number byte => number * 256 + byte.toNat) start =
      start * capacity bytes.length + toNat bytes := by
  induction bytes generalizing start with
  | nil => simp [toNat, capacity]
  | cons byte rest ih =>
      rw [toNat, List.foldl_cons, List.foldl_cons, List.length_cons, capacity, ih, ih]
      rw [Nat.add_mul, Nat.mul_assoc, Nat.zero_mul, Nat.zero_add, Nat.add_assoc]

theorem toNat_cons (byte : UInt8) (rest : Bytes) :
    toNat (byte :: rest) = byte.toNat * capacity rest.length + toNat rest := by
  rw [toNat, List.foldl_cons, foldl_digits, Nat.zero_mul, Nat.zero_add]

theorem toNat_lt (bytes : Bytes) : toNat bytes < capacity bytes.length := by
  induction bytes with
  | nil => decide
  | cons byte rest ih =>
      have bound : byte.toNat * capacity rest.length ≤ 255 * capacity rest.length :=
        Nat.mul_le_mul_right _ (Nat.le_of_lt_succ byte.toNat_lt)
      rw [toNat_cons, List.length_cons, capacity]
      omega

theorem toNat_ofNat (width number : Nat) :
    toNat (ofNat width number) = number % capacity width := by
  induction width with
  | zero => exact (Nat.mod_one number).symm
  | succ width ih =>
      have digit : (UInt8.ofNat (number / capacity width)).toNat =
          number / capacity width % 256 := UInt8.toNat_ofNat'
      rw [ofNat, toNat_cons, length_ofNat, ih, digit, capacity, Nat.mul_comm 256, Nat.mod_mul,
        Nat.mul_comm, Nat.add_comm]

private theorem ofNat_add_mul (width extra number : Nat) :
    ofNat width (extra * capacity width + number) = ofNat width number := by
  induction width generalizing extra with
  | zero => rfl
  | succ width ih =>
      have regroup : extra * capacity (width + 1) = extra * 256 * capacity width := by
        rw [capacity, Nat.mul_assoc]
      have digit : UInt8.ofNat ((extra * 256 * capacity width + number) / capacity width) =
          UInt8.ofNat (number / capacity width) := by
        rw [Nat.add_comm, Nat.add_mul_div_right _ _ (capacity_pos width)]
        apply UInt8.toNat_inj.mp
        simp
      rw [ofNat, ofNat, regroup, digit, ih]

theorem ofNat_toNat (bytes : Bytes) : ofNat bytes.length (toNat bytes) = bytes := by
  induction bytes with
  | nil => rfl
  | cons byte rest ih =>
      have digit : (byte.toNat * capacity rest.length + toNat rest) / capacity rest.length =
          byte.toNat := by
        rw [Nat.add_comm, Nat.add_mul_div_right _ _ (capacity_pos _),
          Nat.div_eq_of_lt (toNat_lt rest), Nat.zero_add]
      rw [List.length_cons, toNat_cons, ofNat, ofNat_add_mul, ih, digit, UInt8.ofNat_toNat]

end Bytes

end HotSwap
