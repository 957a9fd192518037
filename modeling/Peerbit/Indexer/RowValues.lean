import Mathlib

/-!
# Values of rows

A value is bound as a parameter of a statement, stored in a column, and read
back: from the row itself, or from a JSON text that SQLite makes of the rows of
a vector.
-/

namespace Peerbit
namespace Sqlite

/-- A value of JavaScript that is not an object.  A `number` is an integer. -/
inductive Scalar where
  | undefined
  | null
  | number (n : Int)
  | bigint (n : Int)
  | boolean (b : Bool)
  | string (s : String)
  | bytes (b : List UInt8)
deriving DecidableEq

/-- `value == null` -/
def Scalar.isNull : Scalar → Bool
  | .undefined | .null => true
  | _ => false

def Scalar.truthy : Scalar → Bool
  | .undefined | .null => false
  | .number n | .bigint n => n != 0
  | .boolean b => b
  | .string s => s != ""
  | .bytes _ => true

/-- What a column of a strict table holds. -/
inductive SqlValue where
  | null
  | integer (n : Int)
  | text (s : String)
  | blob (b : List UInt8)
deriving DecidableEq

/-- The field types that become one column.  `Uint8Array` and
`fixedArray("u8", n)` are `bytes`. -/
inductive SimpleType where
  | u8
  | u16
  | u32
  | u64
  | bool
  | string
  | bytes
deriving DecidableEq

inductive RowError where
  /-- a value that SQLite does not bind -/
  | notBindable
  /-- more or fewer values than columns -/
  | parameterCount
  | unexpected
  | expectedArray
  | expectedObject
  | tableNotFound
  | classNameNotFound
  | subTableNotFound
  | notBigInt
  | notHex
  | unexpectedU64
deriving DecidableEq

/-! ### Binding -/

/-- `SQLConversionMap`.  The columns of fields all accept null. -/
def toSQLType : SimpleType → String
  | .u8 | .u16 | .u32 | .u64 | .bool => "INTEGER"
  | .string => "TEXT"
  | .bytes => "BLOB"

def u64ToI64 (u64 : Int) : Int := u64 - 9223372036854775808

def i64ToU64 (i64 : Int) : Int := i64 + 9223372036854775808

def convertToSQLType (value : Scalar) (type : SimpleType) : Scalar :=
  if value.isNull then value
  else
    match type, value with
    | .bool, value => .number (if value.truthy then 1 else 0)
    | .u64, .number n | .u64, .bigint n => .bigint (u64ToI64 n)
    | _, value => value

def Scalar.bindable : Scalar → Bool
  | .boolean _ => false
  | _ => true

/-- The value of a parameter. -/
def Scalar.sql : Scalar → SqlValue
  | .undefined | .null | .boolean _ => .null
  | .number n | .bigint n => .integer n
  | .string s => .text s
  | .bytes b => .blob b

/-! ### Reading -/

/-- The value of a column of a row: integers are read as `bigint`. -/
def SqlValue.read : SqlValue → Scalar
  | .null => .null
  | .integer n => .bigint n
  | .text s => .string s
  | .blob b => .bytes b

def hexDigit (n : Nat) : Char :=
  "0123456789ABCDEF".toList.getD n '0'

def hexValue (c : Char) : Option Nat :=
  "0123456789ABCDEF".toList.idxOf? c.toUpper

/-- `HEX` of SQLite. -/
def hex (b : List UInt8) : List Char :=
  b.flatMap (fun byte => [hexDigit (byte.toNat / 16), hexDigit (byte.toNat % 16)])

def fromHex : List Char → Except RowError (List UInt8)
  | [] => .ok []
  | high :: low :: rest =>
      match hexValue high, hexValue low, fromHex rest with
      | some high, some low, .ok bytes => .ok (UInt8.ofNat (16 * high + low) :: bytes)
      | _, _, _ => .error .notHex
  | [_] => .error .notHex

def fromHexString : Scalar → Except RowError Scalar
  | .string s => (fromHex s.toList).map .bytes
  | _ => .error .notHex

/-- `BigInt` -/
def bigInt : Scalar → Except RowError Scalar
  | .string s =>
      match s.toInt? with
      | some n => .ok (.bigint n)
      | none => .error .notBigInt
  | .number n | .bigint n => .ok (.bigint n)
  | .boolean b => .ok (.bigint (if b then 1 else 0))
  | _ => .error .notBigInt

def nullAsUndefined : Scalar → Scalar
  | .null => .undefined
  | value => value

def convertFromSQLType (value : Scalar) (type : SimpleType) :
    Except RowError Scalar :=
  match type with
  | .bool =>
      match value with
      | .number 0 | .bigint 0 => .ok (.boolean false)
      | .number 1 | .bigint 1 => .ok (.boolean true)
      | value => .ok (nullAsUndefined value)
  | .u8 | .u16 | .u32 =>
      match value with
      | .bigint n => .ok (.number n)
      -- an integer column does not hold other texts
      | .string s => .ok (s.toInt?.elim .undefined .number)
      | value => .ok (nullAsUndefined value)
  | .u64 =>
      match value with
      | .number n | .bigint n => .ok (.bigint (i64ToU64 n))
      | .undefined | .null => .ok .undefined
      | _ => .error .unexpectedU64
  | .string | .bytes => .ok (nullAsUndefined value)

end Sqlite
end Peerbit
