import ZTask.Seri.Value
import Mathlib.Data.Int.Notation

/-!
# Bson documents and Lua values

The types of the fields of a document, the values that `lua-bson.c` is given to encode, and how its
functions end if they do not return.
-/

namespace ZTask

open Lib

/-! ## Types of fields -/

/-- The types of the fields of a document. -/
inductive BsonType
  | real
  | string
  | document
  | array
  | binary
  | undefined
  | objectId
  | boolean
  | date
  | null
  | regex
  | dbPointer
  | jsCode
  | symbol
  | codeWs
  | int32
  | timestamp
  | int64
  | minKey
  | maxKey
deriving DecidableEq, Repr

namespace BsonType

/-- The number of a type. -/
def code : BsonType → UInt8
  | real => 1
  | string => 2
  | document => 3
  | array => 4
  | binary => 5
  | undefined => 6
  | objectId => 7
  | boolean => 8
  | date => 9
  | null => 10
  | regex => 11
  | dbPointer => 12
  | jsCode => 13
  | symbol => 14
  | codeWs => 15
  | int32 => 16
  | timestamp => 17
  | int64 => 18
  | minKey => 255
  | maxKey => 127

/-- The type with a number. -/
def ofCode? (b : UInt8) : Option BsonType :=
  [real, string, document, array, binary, undefined, objectId, boolean, date, null,
    regex, dbPointer,
    jsCode, symbol, codeWs, int32, timestamp, int64, minKey, maxKey].find? fun t ↦ t.code = b

@[simp] theorem ofCode?_code (t : BsonType) : ofCode? t.code = some t := by
  cases t <;> rfl

theorem code_of_ofCode? {b : UInt8} {t : BsonType} (h : ofCode? b = some t) : t.code = b := by
  have hfound := List.find?_some h
  exact of_decide_eq_true hfound

end BsonType

/-- A document with these fields. -/
def wrap (body : List UInt8) : List UInt8 := toLittle 4 (body.length + 5) ++ (body ++ [0])

theorem length_wrap (body : List UInt8) : (wrap body).length = body.length + 5 := by
  rw [wrap, List.length_append, length_toLittle, List.length_append, List.length_singleton]
  omega

/-! ## Errors -/

/-- The texts of the errors that are raised. -/
inductive BsonMessage
  /-- `Invalid utf8 string` -/
  | invalidUtf8
  /-- `Invalid object id %s`, with the bytes behind the tag -/
  | invalidObjectIdText (bytes : List UInt8)
  /-- `Invalid object id` -/
  | invalidObjectId
  /-- `Invalid date` -/
  | invalidDate
  /-- `Invalid timestamp` -/
  | invalidTimestamp
  /-- `Invalid subtype %d` -/
  | invalidSubtype (subtype : UInt8)
  /-- `Invalid value type : %s` -/
  | invalidValueType (typename : String)
  /-- `Invalid key type : %s` -/
  | invalidKeyType (typename : String)
  /-- `Too depth while encoding bson` -/
  | tooDeep
  /-- `__len should return integer` -/
  | lenNotInteger
  /-- `invalid key to 'next'` -/
  | invalidNext
  /-- `Invalid bson block (%d:%d)` -/
  | invalidBlock (size sz : ℤ)
  /-- `Invalid bson block : cstring` -/
  | invalidCstring
  /-- `Invalid document end` -/
  | invalidEnd
  /-- `Invalid bson string , length = %d` -/
  | invalidString (sz : ℤ)
  /-- `Invalid bson type : %d` -/
  | invalidType (bt : UInt8)
  /-- `buffer too large` -/
  | bufferTooLarge
  /-- `not enough memory for buffer allocation` -/
  | notEnoughMemory
  /-- `call makeindex first` -/
  | noIndex
  /-- `Can't replace key : %s` -/
  | cannotReplaceKey (key : List UInt8)
  /-- `Can't replace type %d` -/
  | cannotReplaceType (type : ℕ)
  /-- `Type mismatch, need bson type %d` -/
  | typeMismatch (type : ℕ)
  /-- `%f must be a %dbit integer`, with the number of bits -/
  | notInteger (bits : ℕ)
  /-- `Argument %d need a string` -/
  | needString (arg : ℕ)
  /-- `Invalid ordered dict` -/
  | invalidOrderedDict
  /-- `bad argument #%d (%s expected, got …)` -/
  | badArgument (arg : ℕ) (expected : String)
deriving DecidableEq, Repr

/-- How a function ends that does not return. -/
inductive BsonError
  /-- An error is raised. -/
  | raised (message : BsonMessage)
  /-- A byte is read or written that is outside of its block. -/
  | outside
  /-- An `int` leaves its range. -/
  | overflow
  /-- The bound of a loop is exceeded. -/
  | unbounded
deriving DecidableEq, Repr

/-! ## Values to encode -/

/-- A value on the stack, as the functions of the API tell of it.

A full userdata is its memory. Of a table there are the pairs in the order of `lua_next`; what
`lua_geti` returns at the indices from 1 to what `lua_rawlen` returns; what `__len` returns if there
is such a metamethod, which is either no integer or the number of the elements that `lua_geti`
returns; and the pairs that the iterator of `__pairs` returns if there is one. -/
inductive BsonObject
  | boolean (b : Bool)
  | integer (i : Int64)
  | real (bits : UInt64)
  | string (bytes : List UInt8)
  | userdata (memory : List UInt8)
  | other (typename : String)
  | table (pairs : List (LuaScalar × BsonObject)) (elements : List BsonObject)
      (metalen : Option (Option (List BsonObject)))
      (metapairs : Option (List (LuaScalar × BsonObject)))

/-- `nil`. -/
def BsonObject.nil : BsonObject := .other "nil"

/-- Where there is no value. -/
def BsonObject.isNil : BsonObject → Bool
  | .other "nil" => true
  | _ => false

/-- The name of the type of a key. -/
def LuaScalar.typename : LuaScalar → String
  | .nil => "nil"
  | .boolean _ => "boolean"
  | .integer _ | .real _ => "number"
  | .string _ => "string"
  | .userdata _ => "userdata"
  | .other name => name

end ZTask
