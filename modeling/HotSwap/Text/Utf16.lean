/-! # Text as 16 bit code units

A character below `0x10000` is one code unit; every other character is a pair of
units, a lead and a trail, that no character below `0x10000` uses. Reading is
total: a lead without a trail, or a trail without a lead, stands for the
replacement character. -/

namespace HotSwap.Utf16

/-- A unit that begins a pair. -/
def isLead (unit : UInt16) : Bool :=
  0xD800 ≤ unit.toNat && unit.toNat < 0xDC00

/-- A unit that ends a pair. -/
def isTrail (unit : UInt16) : Bool :=
  0xDC00 ≤ unit.toNat && unit.toNat < 0xE000

/-- The units of one character. -/
def encodeChar (c : Char) : List UInt16 :=
  if c.toNat < 0x10000 then [UInt16.ofNat c.toNat]
  else
    [UInt16.ofNat (0xD800 + (c.toNat - 0x10000) / 0x400),
      UInt16.ofNat (0xDC00 + (c.toNat - 0x10000) % 0x400)]

def encode (text : List Char) : List UInt16 :=
  text.flatMap encodeChar

/-- What is read where a unit has no partner. -/
def replacement : Char := '\uFFFD'

/-- The character of a unit that is not part of a pair. -/
def ofUnit (unit : UInt16) : Char :=
  if isLead unit || isTrail unit then replacement else Char.ofNat unit.toNat

/-- The character of a lead and its trail. -/
def ofPair (lead trail : UInt16) : Char :=
  Char.ofNat (0x10000 + (lead.toNat - 0xD800) * 0x400 + (trail.toNat - 0xDC00))

/-- Read the units after some text, of which the last character comes first. -/
def decodeAfter : List Char → List UInt16 → List Char
  | text, [] => text.reverse
  | text, [unit] => (ofUnit unit :: text).reverse
  | text, first :: second :: rest =>
      if isLead first && isTrail second then decodeAfter (ofPair first second :: text) rest
      else decodeAfter (ofUnit first :: text) (second :: rest)

def decode (units : List UInt16) : List Char :=
  decodeAfter [] units

theorem decodeAfter_eq (text : List Char) (units : List UInt16) :
    decodeAfter text units = text.reverse ++ decode units := by
  have general (text more : List Char) (units : List UInt16) :
      decodeAfter (text ++ more) units = more.reverse ++ decodeAfter text units := by
    fun_induction decodeAfter text units with
    | case1 text => simp [decodeAfter]
    | case2 text unit => simp [decodeAfter]
    | case3 text first second rest paired ih =>
        rw [decodeAfter, if_pos paired, ← ih]
        rfl
    | case4 text first second rest single ih =>
        rw [decodeAfter, if_neg single, ← ih]
        rfl
  simpa [decode] using general [] text units

theorem decode_nil : decode [] = [] := rfl

theorem decode_singleton (unit : UInt16) : decode [unit] = [ofUnit unit] := rfl

/-- A unit is read with the next one if the two are a pair, and else by itself. -/
theorem decode_cons_cons (first second : UInt16) (rest : List UInt16) :
    decode (first :: second :: rest) =
      if isLead first && isTrail second then ofPair first second :: decode rest
      else ofUnit first :: decode (second :: rest) := by
  rw [decode, decodeAfter]
  split <;> rw [decodeAfter_eq] <;> rfl

end HotSwap.Utf16
