import ZTask.Lib.Absorb
import ZTask.Lib.Word

/-!
# The secure hash algorithm

SHA-1 as its standard describes it, and the keyed hash that is made of a hash: a text is padded to
blocks of 64 bytes, each block is expanded to 80 words (`shaWord`), and each word is a step that
moves five words on by one (`ShaChain.step`).
-/

namespace Lib

/-- `x` rotated to the left by `n`. -/
def rotl (x : UInt32) (n : UInt32) : UInt32 := x <<< n ||| x >>> (32 - n)

/-- Five words. -/
structure ShaChain where
  (a b c d e : UInt32)
deriving DecidableEq

namespace ShaChain

/-- The words at the start. -/
def initial : ShaChain := ⟨0x67452301, 0xefcdab89, 0x98badcfe, 0x10325476, 0xc3d2e1f0⟩

/-- A step with the function, the constant and the word of its round. -/
def step (s : ShaChain) (f : UInt32 → UInt32 → UInt32 → UInt32) (k w : UInt32) : ShaChain :=
  ⟨rotl s.a 5 + f s.b s.c s.d + s.e + k + w, s.a, rotl s.b 30, s.c, s.d⟩

instance : Add ShaChain := ⟨fun s t ↦ ⟨s.a + t.a, s.b + t.b, s.c + t.c, s.d + t.d, s.e + t.e⟩⟩

end ShaChain

/-! ## Rounds -/

def shaCh (x y z : UInt32) : UInt32 := (x &&& y) ^^^ (~~~x &&& z)

def shaParity (x y z : UInt32) : UInt32 := x ^^^ y ^^^ z

def shaMaj (x y z : UInt32) : UInt32 := (x &&& y) ^^^ (x &&& z) ^^^ (y &&& z)

/-- The function of a round. -/
def shaFunction (t : ℕ) : UInt32 → UInt32 → UInt32 → UInt32 :=
  if t < 20 then shaCh else if t < 40 then shaParity else if t < 60 then shaMaj else shaParity

/-- The constant of a round. -/
def shaConstant (t : ℕ) : UInt32 :=
  if t < 20 then 0x5a827999 else if t < 40 then 0x6ed9eba1 else if t <
    60 then 0x8f1bbcdc else 0xca62c1d6

/-- The word with these bytes, the most significant first. -/
def bigWord (bytes : List UInt8) : UInt32 := UInt32.ofNat (ofLittle bytes.reverse)

/-- The word of a round. -/
def shaWord (block : List UInt8) (t : ℕ) : UInt32 :=
  if _h : t < 16 then bigWord (blockAt 4 block t)
  else rotl (shaWord block (t - 3) ^^^ shaWord block (t - 8) ^^^ shaWord block (t - 14) ^^^
    shaWord block (t - 16)) 1

/-- The steps of a block. -/
def shaSteps (block : List UInt8) (s : ShaChain) (n : ℕ) : ShaChain :=
  (List.range n).foldl (fun s t ↦ s.step (shaFunction t) (shaConstant t) (shaWord block t)) s

def shaCompress (s : ShaChain) (block : List UInt8) : ShaChain := s + shaSteps block s 80

/-! ## Texts -/

/-- The zeros that leave eight bytes to a whole block, behind the bit that ends a text. -/
def shaZeros (length : ℕ) : List UInt8 := List.replicate ((119 - length % 64) % 64) 0

/-- A text of so many bits, padded. -/
def shaPad (bits : ℕ) (text : List UInt8) : List UInt8 :=
  text ++ 0x80 :: (shaZeros text.length ++ (toLittle 8 bits).reverse)

/-- The bytes of a word, the most significant first. -/
def bigBytes (x : UInt32) : List UInt8 := (toLittle 4 x.toNat).reverse

def ShaChain.digest (s : ShaChain) : List UInt8 := [s.a, s.b, s.c, s.d, s.e].flatMap bigBytes

/-- The digest of a text, padded as one of so many bits. -/
def shaDigest (bits : ℕ) (text : List UInt8) : List UInt8 :=
  (absorb 64 shaCompress .initial (shaPad bits text)).digest

/-- SHA-1. -/
def secureHash (text : List UInt8) : List UInt8 := shaDigest (8 * text.length) text

/-- The keyed hash made of a hash with blocks of `w` bytes. -/
def keyedHash (w : ℕ) (hash : List UInt8 → List UInt8) (key text : List UInt8) : List UInt8 :=
  let key := if w < key.length then hash key else key
  let key := key ++ List.replicate (w - key.length) 0
  hash (key.map (· ^^^ 0x5c) ++ hash (key.map (· ^^^ 0x36) ++ text))

/-! ## Properties -/

theorem shaSteps_succ (block : List UInt8) (s : ShaChain) (n : ℕ) :
    shaSteps block s (n + 1) =
      (shaSteps block s n).step (shaFunction n) (shaConstant n) (shaWord block n) := by
  rw [shaSteps, List.range_succ, List.foldl_append, List.foldl_cons, List.foldl_nil, ← shaSteps]

theorem shaWord_of_lt {block : List UInt8} {t : ℕ} (h : t < 16) :
    shaWord block t = bigWord (blockAt 4 block t) := by
  rw [shaWord, dif_pos h]

theorem shaWord_add (block : List UInt8) (t : ℕ) : shaWord block (t + 16) =
    rotl (shaWord block (t + 13) ^^^ shaWord block (t + 8) ^^^ shaWord block (t + 2) ^^^
      shaWord block t) 1 := by
  rw [shaWord, dif_neg (by omega), show t + 16 - 3 = t + 13 by omega,
    show t + 16 - 8 = t + 8 by omega, show t + 16 - 14 = t + 2 by omega, Nat.add_sub_cancel]

theorem length_digest (s : ShaChain) : s.digest.length = 20 := by
  simp only [ShaChain.digest, bigBytes, List.flatMap_cons, List.flatMap_nil, List.length_append,
    List.length_reverse, length_toLittle, List.length_nil]

theorem length_secureHash (text : List UInt8) : (secureHash text).length = 20 := length_digest _

end Lib
