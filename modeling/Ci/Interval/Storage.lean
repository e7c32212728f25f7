-- The storage that a compiler takes for an interval: the narrowest integer
-- format that can hold every word of it.
import Ci.Interval.Basic

namespace Ci

/-- An integer format of a machine. -/
inductive Storage where
  | i8
  | u8
  | i16
  | u16
  | i32
  | u32
  | i64
deriving DecidableEq, Repr

namespace Storage

def name : Storage → String
  | i8 => "I8"
  | u8 => "U8"
  | i16 => "I16"
  | u16 => "U16"
  | i32 => "I32"
  | u32 => "U32"
  | i64 => "I64"

end Storage

/-- The narrowest format for the interval. Intervals without negative words take the unsigned
formats, but 32 signed bits come before 32 unsigned ones. -/
def Interval.storage (i : Interval) : Storage :=
  if 0 ≤ i.min then
    if i.max ≤ 255 then .u8
    else if i.max ≤ 65535 then .u16
    else if i.max ≤ 2147483647 then .i32
    else if i.max ≤ 4294967295 then .u32
    else .i64
  else if -128 ≤ i.min ∧ i.max ≤ 127 then .i8
  else if -32768 ≤ i.min ∧ i.max ≤ 32767 then .i16
  else if i.fitsInt32 then .i32
  else .i64

end Ci
