import TinyRedis.GoStrconvProofs

/-! # RESP values and their wire format

    The six implementations of `RedisData`, with `ToBytes` and `ByteData` as
    each of them defines it.  A `*BulkData` may hold nil (the null bulk) and a
    `*ArrayData` may hold nil (the null array), both distinct on the wire from
    their empty counterparts. -/

namespace TinyResp

open GoString GoStrconv

/-- A RESP value. -/
inductive RedisData where
  | bulkData (data : Option Bytes)
  | stringData (data : Bytes)
  | errorData (data : Bytes)
  | intData (data : Int64)
  | plainData (data : Bytes)
  /-- `MakeEmptyArrayData`, and `MakeArrayData(nil)`. -/
  | nullArray
  | arrayData (data : List RedisData)

/-- A reply carrying source text. -/
abbrev RedisData.err (s : String) : RedisData := .errorData (ascii s)

/-- A status reply carrying source text. -/
abbrev RedisData.status (s : String) : RedisData := .stringData (ascii s)

/-- `MakeNullBulkData`. -/
abbrev RedisData.nullBulk : RedisData := .bulkData none

/-- `CRLF`. -/
def crlf : Bytes := [13, 10]

mutual

/-- `ToBytes`: the RESP encoding. -/
def toBytes : RedisData → Bytes
  | .bulkData none => ascii "$-1" ++ crlf
  | .bulkData (some d) => 36 :: itoa d.length ++ crlf ++ d ++ crlf
  | .stringData s => 43 :: s ++ crlf
  | .errorData s => 45 :: s ++ crlf
  | .intData i => 58 :: formatInt i ++ crlf
  | .plainData s => s ++ crlf
  | .nullArray => ascii "*-1" ++ crlf
  | .arrayData xs => 42 :: itoa xs.length ++ crlf ++ toBytesAll xs

/-- The encodings of an array's elements, one after the other. -/
def toBytesAll : List RedisData → Bytes
  | [] => []
  | x :: xs => toBytes x ++ toBytesAll xs

end

mutual

/-- `ByteData`: the payload without framing; nil for the null bulk. -/
def byteData : RedisData → Option Bytes
  | .bulkData d => d
  | .stringData s => some s
  | .errorData s => some s
  | .intData i => some (formatInt i)
  | .plainData s => some s
  | .nullArray => some []
  | .arrayData xs => some (byteDataAll xs)

/-- The payloads of an array's elements, joined. -/
def byteDataAll : List RedisData → Bytes
  | [] => []
  | x :: xs => str (byteData x) ++ byteDataAll xs

end

/-- A command vector: `[][]byte`, each argument possibly nil. -/
abbrev Command := List (Option Bytes)

/-- The command with these words, as a client would type it. -/
abbrev words (ws : List String) : Command := ws.map fun w => some (ascii w)

/-- `(*ArrayData).ToCommand`. -/
def toCommand (data : List RedisData) : Command := data.map byteData

/-- The values an array may hold on the flat fragment: everything the wire
    format frames by itself, one line or one payload each. -/
inductive Scalar : RedisData → Prop where
  | bulk (d : Option Bytes) : Scalar (.bulkData d)
  | string (s : Bytes) : (10 : UInt8) ∉ s → Scalar (.stringData s)
  | error (s : Bytes) : (10 : UInt8) ∉ s → Scalar (.errorData s)
  | int (i : Int64) : Scalar (.intData i)

/-- Flat RESP: a scalar, the null array, or an array of scalars. -/
inductive Flat : RedisData → Prop where
  | scalar {d : RedisData} : Scalar d → Flat d
  | nullArray : Flat .nullArray
  | array (xs : List RedisData) : (∀ x ∈ xs, Scalar x) → Flat (.arrayData xs)

end TinyResp
