import ZTask.Http.Internal
import ZTask.Cslave.Service
import ZTask.Lib.Word
import Mathlib.Data.Nat.Digits.Defs

/-!
# Writing responses

`httpd`'s `writeall`, as the list of the strings that it hands to `writefunc`. A body that a
function produces is written in chunks, piece by piece; empty pieces are not written. The line end
in front of the first chunk ends the header, and the line ends in front of the others end the chunks
before them (`flatten_writeall`).
-/

namespace ZTask

open Lib

/-! ## Status lines -/

def httpStatusMsg : ℕ → Option String
  | 100 => some "Continue"
  | 101 => some "Switching Protocols"
  | 200 => some "OK"
  | 201 => some "Created"
  | 202 => some "Accepted"
  | 203 => some "Non-Authoritative Information"
  | 204 => some "No Content"
  | 205 => some "Reset Content"
  | 206 => some "Partial Content"
  | 300 => some "Multiple Choices"
  | 301 => some "Moved Permanently"
  | 302 => some "Found"
  | 303 => some "See Other"
  | 304 => some "Not Modified"
  | 305 => some "Use Proxy"
  | 307 => some "Temporary Redirect"
  | 400 => some "Bad Request"
  | 401 => some "Unauthorized"
  | 402 => some "Payment Required"
  | 403 => some "Forbidden"
  | 404 => some "Not Found"
  | 405 => some "Method Not Allowed"
  | 406 => some "Not Acceptable"
  | 407 => some "Proxy Authentication Required"
  | 408 => some "Request Time-out"
  | 409 => some "Conflict"
  | 410 => some "Gone"
  | 411 => some "Length Required"
  | 412 => some "Precondition Failed"
  | 413 => some "Request Entity Too Large"
  | 414 => some "Request-URI Too Large"
  | 415 => some "Unsupported Media Type"
  | 416 => some "Requested range not satisfiable"
  | 417 => some "Expectation Failed"
  | 500 => some "Internal Server Error"
  | 501 => some "Not Implemented"
  | 502 => some "Bad Gateway"
  | 503 => some "Service Unavailable"
  | 504 => some "Gateway Time-out"
  | 505 => some "HTTP Version not supported"
  | _ => none

/-! ## Numbers -/

/-- `%03d`. -/
def decimal3 (n : ℕ) : List UInt8 := List.replicate (3 - (decimal n).length) 48 ++ decimal n

def xDigit (d : ℕ) : UInt8 := UInt8.ofNat (if d < 10 then 48 + d else 87 + d)

/-- `%x`. -/
def hexText (n : ℕ) : List UInt8 :=
  if n = 0 then [48] else (Nat.digits 16 n).reverse.map xDigit

/-! ## What is written -/

/-- What `bodyfunc` is: a string, a function that returns pieces and then `nil`, or `nil`. -/
inductive BodyFunc
  | string (s : List UInt8)
  | function (pieces : List (List UInt8))
  | none

/-- The fields of a header, in the order of `pairs`. -/
abbrev HeaderFields := List (List UInt8 × HeaderValue)

def fieldLine (k v : List UInt8) : List UInt8 := k ++ ascii ": " ++ v ++ crln

def writeFields (header : HeaderFields) : List (List UInt8) :=
  header.flatMap fun f ↦
    match f.2 with
    | .one v => [fieldLine f.1 v]
    | .many vs => vs.map (fieldLine f.1)

/-- The loop over the pieces. -/
def writePieces : List (List UInt8) → List (List UInt8)
  | [] => [crln ++ ascii "0" ++ crln ++ crln]
  | s :: pieces =>
    if s ≠ [] then (crln ++ hexText s.length ++ crln) :: s :: writePieces pieces
    else writePieces pieces

/-- The status line and the fields that the caller gives. -/
def writeHead (statuscode : ℕ) (header : HeaderFields) : List (List UInt8) :=
  (ascii "HTTP/1.1 " ++ decimal3 statuscode ++ ascii " " ++
    ascii ((httpStatusMsg statuscode).getD "") ++ crln) :: writeFields header

def writeall (statuscode : ℕ) (bodyfunc : BodyFunc) (header : HeaderFields) : List (List UInt8) :=
  writeHead statuscode header ++
    match bodyfunc with
    | .string s => [ascii "content-length: " ++ decimal s.length ++ crln ++ crln, s]
    | .function pieces => (ascii "transfer-encoding: chunked" ++ crln) :: writePieces pieces
    | .none => [crln]

/-! ## The text -/

/-- The chunks of the pieces as they stand behind the header. -/
def chunkedText : List (List UInt8) → List UInt8
  | [] => [48] ++ (crln ++ crln)
  | s :: pieces =>
    if s ≠ [] then hexText s.length ++ (crln ++ (s ++ (crln ++ chunkedText pieces)))
    else chunkedText pieces

private theorem flatten_writePieces (pieces : List (List UInt8)) :
    (writePieces pieces).flatten = crln ++ chunkedText pieces := by
  induction pieces with
  | nil => rfl
  | cons s pieces ih =>
    rw [writePieces, chunkedText]
    split
    · simp only [List.flatten_cons, ih, List.append_assoc]
    · exact ih

/-- **What is written**: the head, the field for the encoding, the line end of the header and the
chunks. -/
theorem flatten_writeall (statuscode : ℕ) (pieces : List (List UInt8)) (header : HeaderFields) :
    (writeall statuscode (.function pieces) header).flatten =
      (writeHead statuscode header).flatten ++
        (ascii "transfer-encoding: chunked" ++ blankLine ++ chunkedText pieces) := by
  rw [writeall, List.flatten_append, List.flatten_cons, flatten_writePieces]
  simp only [List.append_assoc, show blankLine = crln ++ crln from rfl]

end ZTask
