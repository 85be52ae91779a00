import ZTask.Lib.Feistel
import ZTask.Lib.Word
import Mathlib.Data.List.Basic

/-!
# DES blocks

The tables and macros of `lua-crypt.c`, `des_main_ks` and `des_crypt`. The initial and the final
permutation are made of swaps of bits between the two words of a block, and undo each other; the
rounds between them are a Feistel network. So `des_crypt` with the subkeys in the opposite order
undoes `des_crypt` (`desCrypt_desCrypt`).
-/

namespace ZTask

open Lib

/-- `uint32_t`. -/
abbrev DesWord := BitVec 32

/-! ## Tables -/

def desSB1 : List DesWord :=
  [0x01010400, 0x00000000, 0x00010000, 0x01010404, 0x01010004, 0x00010404, 0x00000004, 0x00010000,
    0x00000400, 0x01010400, 0x01010404, 0x00000400, 0x01000404, 0x01010004, 0x01000000, 0x00000004,
    0x00000404, 0x01000400, 0x01000400, 0x00010400, 0x00010400, 0x01010000, 0x01010000, 0x01000404,
    0x00010004, 0x01000004, 0x01000004, 0x00010004, 0x00000000, 0x00000404, 0x00010404, 0x01000000,
    0x00010000, 0x01010404, 0x00000004, 0x01010000, 0x01010400, 0x01000000, 0x01000000, 0x00000400,
    0x01010004, 0x00010000, 0x00010400, 0x01000004, 0x00000400, 0x00000004, 0x01000404, 0x00010404,
    0x01010404, 0x00010004, 0x01010000, 0x01000404, 0x01000004, 0x00000404, 0x00010404, 0x01010400,
    0x00000404, 0x01000400, 0x01000400, 0x00000000, 0x00010004, 0x00010400, 0x00000000, 0x01010004]

def desSB2 : List DesWord :=
  [0x80108020, 0x80008000, 0x00008000, 0x00108020, 0x00100000, 0x00000020, 0x80100020, 0x80008020,
    0x80000020, 0x80108020, 0x80108000, 0x80000000, 0x80008000, 0x00100000, 0x00000020, 0x80100020,
    0x00108000, 0x00100020, 0x80008020, 0x00000000, 0x80000000, 0x00008000, 0x00108020, 0x80100000,
    0x00100020, 0x80000020, 0x00000000, 0x00108000, 0x00008020, 0x80108000, 0x80100000, 0x00008020,
    0x00000000, 0x00108020, 0x80100020, 0x00100000, 0x80008020, 0x80100000, 0x80108000, 0x00008000,
    0x80100000, 0x80008000, 0x00000020, 0x80108020, 0x00108020, 0x00000020, 0x00008000, 0x80000000,
    0x00008020, 0x80108000, 0x00100000, 0x80000020, 0x00100020, 0x80008020, 0x80000020, 0x00100020,
    0x00108000, 0x00000000, 0x80008000, 0x00008020, 0x80000000, 0x80100020, 0x80108020, 0x00108000]

def desSB3 : List DesWord :=
  [0x00000208, 0x08020200, 0x00000000, 0x08020008, 0x08000200, 0x00000000, 0x00020208, 0x08000200,
    0x00020008, 0x08000008, 0x08000008, 0x00020000, 0x08020208, 0x00020008, 0x08020000, 0x00000208,
    0x08000000, 0x00000008, 0x08020200, 0x00000200, 0x00020200, 0x08020000, 0x08020008, 0x00020208,
    0x08000208, 0x00020200, 0x00020000, 0x08000208, 0x00000008, 0x08020208, 0x00000200, 0x08000000,
    0x08020200, 0x08000000, 0x00020008, 0x00000208, 0x00020000, 0x08020200, 0x08000200, 0x00000000,
    0x00000200, 0x00020008, 0x08020208, 0x08000200, 0x08000008, 0x00000200, 0x00000000, 0x08020008,
    0x08000208, 0x00020000, 0x08000000, 0x08020208, 0x00000008, 0x00020208, 0x00020200, 0x08000008,
    0x08020000, 0x08000208, 0x00000208, 0x08020000, 0x00020208, 0x00000008, 0x08020008, 0x00020200]

def desSB4 : List DesWord :=
  [0x00802001, 0x00002081, 0x00002081, 0x00000080, 0x00802080, 0x00800081, 0x00800001, 0x00002001,
    0x00000000, 0x00802000, 0x00802000, 0x00802081, 0x00000081, 0x00000000, 0x00800080, 0x00800001,
    0x00000001, 0x00002000, 0x00800000, 0x00802001, 0x00000080, 0x00800000, 0x00002001, 0x00002080,
    0x00800081, 0x00000001, 0x00002080, 0x00800080, 0x00002000, 0x00802080, 0x00802081, 0x00000081,
    0x00800080, 0x00800001, 0x00802000, 0x00802081, 0x00000081, 0x00000000, 0x00000000, 0x00802000,
    0x00002080, 0x00800080, 0x00800081, 0x00000001, 0x00802001, 0x00002081, 0x00002081, 0x00000080,
    0x00802081, 0x00000081, 0x00000001, 0x00002000, 0x00800001, 0x00002001, 0x00802080, 0x00800081,
    0x00002001, 0x00002080, 0x00800000, 0x00802001, 0x00000080, 0x00800000, 0x00002000, 0x00802080]

def desSB5 : List DesWord :=
  [0x00000100, 0x02080100, 0x02080000, 0x42000100, 0x00080000, 0x00000100, 0x40000000, 0x02080000,
    0x40080100, 0x00080000, 0x02000100, 0x40080100, 0x42000100, 0x42080000, 0x00080100, 0x40000000,
    0x02000000, 0x40080000, 0x40080000, 0x00000000, 0x40000100, 0x42080100, 0x42080100, 0x02000100,
    0x42080000, 0x40000100, 0x00000000, 0x42000000, 0x02080100, 0x02000000, 0x42000000, 0x00080100,
    0x00080000, 0x42000100, 0x00000100, 0x02000000, 0x40000000, 0x02080000, 0x42000100, 0x40080100,
    0x02000100, 0x40000000, 0x42080000, 0x02080100, 0x40080100, 0x00000100, 0x02000000, 0x42080000,
    0x42080100, 0x00080100, 0x42000000, 0x42080100, 0x02080000, 0x00000000, 0x40080000, 0x42000000,
    0x00080100, 0x02000100, 0x40000100, 0x00080000, 0x00000000, 0x40080000, 0x02080100, 0x40000100]

def desSB6 : List DesWord :=
  [0x20000010, 0x20400000, 0x00004000, 0x20404010, 0x20400000, 0x00000010, 0x20404010, 0x00400000,
    0x20004000, 0x00404010, 0x00400000, 0x20000010, 0x00400010, 0x20004000, 0x20000000, 0x00004010,
    0x00000000, 0x00400010, 0x20004010, 0x00004000, 0x00404000, 0x20004010, 0x00000010, 0x20400010,
    0x20400010, 0x00000000, 0x00404010, 0x20404000, 0x00004010, 0x00404000, 0x20404000, 0x20000000,
    0x20004000, 0x00000010, 0x20400010, 0x00404000, 0x20404010, 0x00400000, 0x00004010, 0x20000010,
    0x00400000, 0x20004000, 0x20000000, 0x00004010, 0x20000010, 0x20404010, 0x00404000, 0x20400000,
    0x00404010, 0x20404000, 0x00000000, 0x20400010, 0x00000010, 0x00004000, 0x20400000, 0x00404010,
    0x00004000, 0x00400010, 0x20004010, 0x00000000, 0x20404000, 0x20000000, 0x00400010, 0x20004010]

def desSB7 : List DesWord :=
  [0x00200000, 0x04200002, 0x04000802, 0x00000000, 0x00000800, 0x04000802, 0x00200802, 0x04200800,
    0x04200802, 0x00200000, 0x00000000, 0x04000002, 0x00000002, 0x04000000, 0x04200002, 0x00000802,
    0x04000800, 0x00200802, 0x00200002, 0x04000800, 0x04000002, 0x04200000, 0x04200800, 0x00200002,
    0x04200000, 0x00000800, 0x00000802, 0x04200802, 0x00200800, 0x00000002, 0x04000000, 0x00200800,
    0x04000000, 0x00200800, 0x00200000, 0x04000802, 0x04000802, 0x04200002, 0x04200002, 0x00000002,
    0x00200002, 0x04000000, 0x04000800, 0x00200000, 0x04200800, 0x00000802, 0x00200802, 0x04200800,
    0x00000802, 0x04000002, 0x04200802, 0x04200000, 0x00200800, 0x00000000, 0x00000002, 0x04200802,
    0x00000000, 0x00200802, 0x04200000, 0x00000800, 0x04000002, 0x04000800, 0x00000800, 0x00200002]

def desSB8 : List DesWord :=
  [0x10001040, 0x00001000, 0x00040000, 0x10041040, 0x10000000, 0x10001040, 0x00000040, 0x10000000,
    0x00040040, 0x10040000, 0x10041040, 0x00041000, 0x10041000, 0x00041040, 0x00001000, 0x00000040,
    0x10040000, 0x10000040, 0x10001000, 0x00001040, 0x00041000, 0x00040040, 0x10040040, 0x10041000,
    0x00001040, 0x00000000, 0x00000000, 0x10040040, 0x10000040, 0x10001000, 0x00041040, 0x00040000,
    0x00041040, 0x00040000, 0x10041000, 0x00001000, 0x00000040, 0x10040040, 0x00001000, 0x00041040,
    0x10001000, 0x00000040, 0x10000040, 0x10040000, 0x10040040, 0x10000000, 0x00040000, 0x10001040,
    0x00000000, 0x10041040, 0x00040040, 0x10000040, 0x10040000, 0x10001000, 0x10001040, 0x00000000,
    0x10041040, 0x00041000, 0x00041000, 0x00001040, 0x00001040, 0x00040040, 0x10000000, 0x10041000]

def desLHs : List DesWord :=
  [0x00000000, 0x00000001, 0x00000100, 0x00000101, 0x00010000, 0x00010001, 0x00010100, 0x00010101,
    0x01000000, 0x01000001, 0x01000100, 0x01000101, 0x01010000, 0x01010001, 0x01010100, 0x01010101]

def desRHs : List DesWord :=
  [0x00000000, 0x01000000, 0x00010000, 0x01010000, 0x00000100, 0x01000100, 0x00010100, 0x01010100,
    0x00000001, 0x01000001, 0x00010001, 0x01010001, 0x00000101, 0x01000101, 0x00010101, 0x01010101]

/-! ## Macros -/

/-- `GET_UINT32`. -/
def getUint32 (b : List UInt8) (i : ℕ) : DesWord :=
  ((b.getD i 0).toBitVec.setWidth 32 <<< 24) |||
    ((b.getD (i + 1) 0).toBitVec.setWidth 32 <<< 16) |||
    ((b.getD (i + 2) 0).toBitVec.setWidth 32 <<< 8) ||| (b.getD (i + 3) 0).toBitVec.setWidth 32

/-- `PUT_UINT32`. -/
def putUint32 (n : DesWord) : List UInt8 :=
  [⟨(n >>> 24).setWidth 8⟩, ⟨(n >>> 16).setWidth 8⟩, ⟨(n >>> 8).setWidth 8⟩, ⟨n.setWidth 8⟩]

/-- A line of `DES_IP` and `DES_FP`: `T = ((X >> k) ^ Y) & m; Y ^= T; X ^= (T << k)`. -/
def swapBits (k : ℕ) (m : DesWord) (x y : DesWord) : DesWord × DesWord :=
  let t := ((x >>> k) ^^^ y) &&& m
  (x ^^^ (t <<< k), y ^^^ t)

/-- `DES_IP`. -/
def desIP (x y : DesWord) : DesWord × DesWord :=
  let (x, y) := swapBits 4 0x0F0F0F0F x y
  let (x, y) := swapBits 16 0x0000FFFF x y
  let (y, x) := swapBits 2 0x33333333 y x
  let (y, x) := swapBits 8 0x00FF00FF y x
  let y := ((y <<< 1) ||| (y >>> 31)) &&& 0xFFFFFFFF
  let (x, y) := swapBits 0 0xAAAAAAAA x y
  let x := ((x <<< 1) ||| (x >>> 31)) &&& 0xFFFFFFFF
  (x, y)

/-- `DES_FP`. -/
def desFP (x y : DesWord) : DesWord × DesWord :=
  let x := ((x <<< 31) ||| (x >>> 1)) &&& 0xFFFFFFFF
  let (x, y) := swapBits 0 0xAAAAAAAA x y
  let y := ((y <<< 31) ||| (y >>> 1)) &&& 0xFFFFFFFF
  let (y, x) := swapBits 8 0x00FF00FF y x
  let (y, x) := swapBits 2 0x33333333 y x
  let (x, y) := swapBits 16 0x0000FFFF x y
  let (x, y) := swapBits 4 0x0F0F0F0F x y
  (x, y)

/-- An entry of a table of 64, for a byte of `t`. -/
def sBox (table : List DesWord) (t : DesWord) : DesWord := table.getD (t &&& 0x3F).toNat 0

/-- What the words `k₁` and `k₂` of the key make of `x` in `DES_ROUND`. -/
def desMix (k₁ k₂ x : DesWord) : DesWord × DesWord :=
  let t := k₁ ^^^ x
  let first := sBox desSB8 t ^^^ sBox desSB6 (t >>> 8) ^^^ sBox desSB4 (t >>> 16) ^^^
    sBox desSB2 (t >>> 24)
  let t := k₂ ^^^ ((x <<< 28) ||| (x >>> 4))
  let second := sBox desSB7 t ^^^ sBox desSB5 (t >>> 8) ^^^ sBox desSB3 (t >>> 16) ^^^
    sBox desSB1 (t >>> 24)
  (first, second)

/-- `DES_ROUND`, with the new `y`. -/
def desRound (k₁ k₂ x y : DesWord) : DesWord :=
  let y := y ^^^ (desMix k₁ k₂ x).1
  y ^^^ (desMix k₁ k₂ x).2

/-! ## Subkeys -/

/-- An entry of a table of 16, for a half byte of `t`. -/
def nibble (table : List DesWord) (t : DesWord) : DesWord := table.getD (t &&& 0xF).toNat 0

/-- Permuted choice 1. -/
def desPC1 (x y : DesWord) : DesWord × DesWord :=
  let (y, x) := swapBits 4 0x0F0F0F0F y x
  let (y, x) := swapBits 0 0x10101010 y x
  let x' := (nibble desLHs x <<< 3) ||| (nibble desLHs (x >>> 8) <<< 2) |||
    (nibble desLHs (x >>> 16) <<< 1) ||| nibble desLHs (x >>> 24) |||
    (nibble desLHs (x >>> 5) <<< 7) ||| (nibble desLHs (x >>> 13) <<< 6) |||
    (nibble desLHs (x >>> 21) <<< 5) ||| (nibble desLHs (x >>> 29) <<< 4)
  let y' := (nibble desRHs (y >>> 1) <<< 3) ||| (nibble desRHs (y >>> 9) <<< 2) |||
    (nibble desRHs (y >>> 17) <<< 1) ||| nibble desRHs (y >>> 25) |||
    (nibble desRHs (y >>> 4) <<< 7) ||| (nibble desRHs (y >>> 12) <<< 6) |||
    (nibble desRHs (y >>> 20) <<< 5) ||| (nibble desRHs (y >>> 28) <<< 4)
  (x' &&& 0x0FFFFFFF, y' &&& 0x0FFFFFFF)

/-- The rotation of a half of the key in round `i`. -/
def rotateKey (i : ℕ) (x : DesWord) : DesWord :=
  if i < 2 ∨ i = 8 ∨ i = 15 then ((x <<< 1) ||| (x >>> 27)) &&& 0x0FFFFFFF
  else ((x <<< 2) ||| (x >>> 26)) &&& 0x0FFFFFFF

/-- The first word of a subkey. -/
def subkeyFirst (x y : DesWord) : DesWord :=
  ((x <<< 4) &&& 0x24000000) ||| ((x <<< 28) &&& 0x10000000) |||
  ((x <<< 14) &&& 0x08000000) ||| ((x <<< 18) &&& 0x02080000) |||
  ((x <<< 6) &&& 0x01000000) ||| ((x <<< 9) &&& 0x00200000) |||
  ((x >>> 1) &&& 0x00100000) ||| ((x <<< 10) &&& 0x00040000) |||
  ((x <<< 2) &&& 0x00020000) ||| ((x >>> 10) &&& 0x00010000) |||
  ((y >>> 13) &&& 0x00002000) ||| ((y >>> 4) &&& 0x00001000) |||
  ((y <<< 6) &&& 0x00000800) ||| ((y >>> 1) &&& 0x00000400) |||
  ((y >>> 14) &&& 0x00000200) ||| (y &&& 0x00000100) |||
  ((y >>> 5) &&& 0x00000020) ||| ((y >>> 10) &&& 0x00000010) |||
  ((y >>> 3) &&& 0x00000008) ||| ((y >>> 18) &&& 0x00000004) |||
  ((y >>> 26) &&& 0x00000002) ||| ((y >>> 24) &&& 0x00000001)

/-- The second word of a subkey. -/
def subkeySecond (x y : DesWord) : DesWord :=
  ((x <<< 15) &&& 0x20000000) ||| ((x <<< 17) &&& 0x10000000) |||
  ((x <<< 10) &&& 0x08000000) ||| ((x <<< 22) &&& 0x04000000) |||
  ((x >>> 2) &&& 0x02000000) ||| ((x <<< 1) &&& 0x01000000) |||
  ((x <<< 16) &&& 0x00200000) ||| ((x <<< 11) &&& 0x00100000) |||
  ((x <<< 3) &&& 0x00080000) ||| ((x >>> 6) &&& 0x00040000) |||
  ((x <<< 15) &&& 0x00020000) ||| ((x >>> 4) &&& 0x00010000) |||
  ((y >>> 2) &&& 0x00002000) ||| ((y <<< 8) &&& 0x00001000) |||
  ((y >>> 14) &&& 0x00000808) ||| ((y >>> 9) &&& 0x00000400) |||
  (y &&& 0x00000200) ||| ((y <<< 7) &&& 0x00000100) |||
  ((y >>> 7) &&& 0x00000020) ||| ((y >>> 3) &&& 0x00000011) |||
  ((y <<< 2) &&& 0x00000004) ||| ((y >>> 21) &&& 0x00000002)

/-- The loop of `des_main_ks`, for `n` rounds from round `i` on. -/
def subkeys : ℕ → ℕ → DesWord → DesWord → List DesWord
  | 0, _, _, _ => []
  | n + 1, i, x, y =>
    let x := rotateKey i x
    let y := rotateKey i y
    subkeyFirst x y :: subkeySecond x y :: subkeys n (i + 1) x y

/-- `des_main_ks`. -/
def desMainKs (key : List UInt8) : List DesWord :=
  let (x, y) := desPC1 (getUint32 key 0) (getUint32 key 4)
  subkeys 16 0 x y

/-- The subkeys that `ldesdecode` makes of those of `des_main_ks`. -/
def reverseKeys (esk : List DesWord) : List DesWord :=
  (List.range 16).flatMap fun n ↦ [esk.getD (30 - 2 * n) 0, esk.getD (31 - 2 * n) 0]

/-! ## Blocks -/

/-- The rounds of `des_crypt`, two at a time, as long as there are words of the key. -/
def desRounds : List DesWord → DesWord × DesWord → DesWord × DesWord
  | k₁ :: k₂ :: k₃ :: k₄ :: sk, (x, y) =>
    let x := desRound k₁ k₂ y x
    let y := desRound k₃ k₄ x y
    desRounds sk (x, y)
  | _, p => p

/-- `des_crypt`. -/
def desCrypt (sk : List DesWord) (input : List UInt8) : List UInt8 :=
  let (x, y) := desIP (getUint32 input 0) (getUint32 input 4)
  let (x, y) := desRounds sk (x, y)
  let (y, x) := desFP y x
  putUint32 y ++ putUint32 x

/-! ## Words and bytes -/

/-- The four bytes of a word, put together. -/
theorem word_of_bytes (x : DesWord) :
    ((x >>> 24).setWidth 8).setWidth 32 <<< 24 ||| ((x >>> 16).setWidth 8).setWidth 32 <<< 16 |||
      ((x >>> 8).setWidth 8).setWidth 32 <<< 8 ||| (x.setWidth 8).setWidth 32 = x := by
  ext i hi
  simp only [BitVec.getElem_or, BitVec.getElem_shiftLeft, BitVec.getElem_setWidth,
    BitVec.getLsbD_setWidth, BitVec.getLsbD_ushiftRight]
  -- The byte that the bit is in.
  by_cases h₁ : i < 8
  · simp [h₁, show i < 16 by omega, show i < 24 by omega, BitVec.getLsbD_eq_getElem hi]
  by_cases h₂ : i < 16
  · simp [h₁, h₂, show i < 24 by omega, show i - 8 < 8 by omega, show 8 + (i - 8) = i by omega,
      BitVec.getLsbD_eq_getElem hi]
  by_cases h₃ : i < 24
  · simp [h₁, h₂, h₃, show i - 16 < 8 by omega, show ¬i - 8 < 8 by omega,
      show 16 + (i - 16) = i by omega, BitVec.getLsbD_eq_getElem hi]
  · simp [h₁, h₂, h₃, show i - 24 < 8 by omega, show ¬i - 16 < 8 by omega, show ¬i - 8 < 8 by omega,
      show 24 + (i - 24) = i by omega, BitVec.getLsbD_eq_getElem hi]

/-- The bytes of a word that is put together of four bytes. -/
theorem bytes_of_word {a b c d : BitVec 8} {x : DesWord}
    (hx : x = a.setWidth 32 <<< 24 ||| b.setWidth 32 <<< 16 ||| c.setWidth 32 <<< 8 |||
    d.setWidth 32) :
    (x >>> 24).setWidth 8 = a ∧ (x >>> 16).setWidth 8 = b ∧ (x >>> 8).setWidth 8 = c ∧
      x.setWidth 8 = d := by
  have hbit : ∀ i, i < 32 → x.getLsbD i =
      ((!decide (i < 24) && a.getLsbD (i - 24) || !decide (i < 16) && b.getLsbD (i - 16)) ||
        !decide (i < 8) && c.getLsbD (i - 8) || d.getLsbD i) := by
    intro i hi
    rw [hx]
    simp [hi]
  clear hx
  refine ⟨?_, ?_, ?_, ?_⟩
  · ext i hi
    rw [BitVec.getElem_setWidth, BitVec.getLsbD_ushiftRight, hbit _ (by omega),
      BitVec.getLsbD_of_ge b _ (by omega), BitVec.getLsbD_of_ge c _ (by omega),
      BitVec.getLsbD_of_ge d _ (by omega), Nat.add_sub_cancel_left, BitVec.getLsbD_eq_getElem hi]
    simp
  · ext i hi
    rw [BitVec.getElem_setWidth, BitVec.getLsbD_ushiftRight, hbit _ (by omega),
      BitVec.getLsbD_of_ge c _ (by omega), BitVec.getLsbD_of_ge d _ (by omega),
      Nat.add_sub_cancel_left, BitVec.getLsbD_eq_getElem hi]
    simp [show 16 + i < 24 by omega]
  · ext i hi
    rw [BitVec.getElem_setWidth, BitVec.getLsbD_ushiftRight, hbit _ (by omega),
      BitVec.getLsbD_of_ge d _ (by omega), Nat.add_sub_cancel_left, BitVec.getLsbD_eq_getElem hi]
    simp [show 8 + i < 24 by omega, show 8 + i < 16 by omega]
  · ext i hi
    rw [BitVec.getElem_setWidth, hbit _ (by omega), BitVec.getLsbD_eq_getElem hi]
    simp [show i < 24 by omega, show i < 16 by omega, hi]
private theorem getUint32_putUint32 (x y : DesWord) :
    getUint32 (putUint32 x ++ putUint32 y) 0 = x ∧ getUint32 (putUint32 x ++ putUint32 y) 4 = y :=
  ⟨word_of_bytes x, word_of_bytes y⟩

private theorem putUint32_getUint32 {input : List UInt8} (h : input.length = 8) :
    putUint32 (getUint32 input 0) ++ putUint32 (getUint32 input 4) = input := by
  rcases input with _ | ⟨b₀, _ | ⟨b₁,
      _ | ⟨b₂, _ | ⟨b₃, _ | ⟨b₄, _ | ⟨b₅, _ | ⟨b₆, _ | ⟨b₇, rest⟩⟩⟩⟩⟩⟩⟩⟩ <;>
    try cases h
  obtain rfl : rest = [] := by simpa using h
  obtain ⟨h₀, h₁, h₂, h₃⟩ := bytes_of_word (x := getUint32 [b₀, b₁, b₂, b₃, b₄, b₅, b₆, b₇] 0) rfl
  obtain ⟨h₄, h₅, h₆, h₇⟩ := bytes_of_word (x := getUint32 [b₀, b₁, b₂, b₃, b₄, b₅, b₆, b₇] 4) rfl
  rw [putUint32, putUint32, h₀, h₁, h₂, h₃, h₄, h₅, h₆, h₇]
  rfl

/-! ## Permutations -/

private theorem shift_back {k : ℕ} {t m : DesWord} (hm : (m <<< k) >>> k = m) :
    ((t &&& m) <<< k) >>> k = t &&& m := by
  rw [BitVec.shiftLeft_and_distrib, BitVec.ushiftRight_and_distrib, hm]
  ext i hi
  have hbit := congrArg (fun w : DesWord ↦ w.getLsbD i) hm
  have hsub : k + i - k = i := by omega
  have hk : decide (k + i < k) = false := decide_eq_false (by omega)
  simp only [BitVec.getLsbD_ushiftRight, BitVec.getLsbD_shiftLeft, hsub, hk] at hbit
  simp only [BitVec.getElem_and, BitVec.getElem_ushiftRight, BitVec.getLsbD_shiftLeft, hsub, hk]
  rw [← BitVec.getLsbD_eq_getElem, ← BitVec.getLsbD_eq_getElem, ← hbit]
  cases decide (k + i < 32) <;> simp

/-- **Bits that are swapped twice are back.** -/
theorem swapBits_swapBits {k : ℕ} {m : DesWord} (hm : (m <<< k) >>> k = m) {x y x' y' : DesWord}
    (h : swapBits k m x y = (x', y')) : swapBits k m x' y' = (x, y) := by
  have hback := shift_back (t := (x >>> k) ^^^ y) hm
  have ht : ((x ^^^ ((((x >>> k) ^^^ y) &&& m) <<< k)) >>> k ^^^
      (y ^^^ (((x >>> k) ^^^ y) &&& m))) &&& m =
      ((x >>> k) ^^^ y) &&& m := by
    rw [BitVec.ushiftRight_xor_distrib, hback]
    generalize x >>> k = a
    ext i hi
    simp only [BitVec.getElem_and, BitVec.getElem_xor]
    cases a[i] <;> cases y[i] <;> cases m[i] <;> rfl
  cases h
  rw [swapBits, ht, BitVec.xor_assoc, BitVec.xor_self, BitVec.xor_zero, BitVec.xor_assoc,
    BitVec.xor_self, BitVec.xor_zero]

private theorem and_ones (x : DesWord) : x &&& 0xFFFFFFFF = x := BitVec.and_allOnes

private theorem rotr_rotl (x : DesWord) :
    (((x <<< 1) ||| (x >>> 31)) <<< 31) ||| (((x <<< 1) ||| (x >>> 31)) >>> 1) = x := by
  ext i hi
  simp only [BitVec.getElem_or, BitVec.getElem_shiftLeft, BitVec.getElem_ushiftRight,
    BitVec.getLsbD_or, BitVec.getLsbD_shiftLeft, BitVec.getLsbD_ushiftRight]
  by_cases h : i < 31
  · simp [h, show 1 + i < 32 by omega, BitVec.getLsbD_eq_getElem hi,
      BitVec.getLsbD_of_ge x (31 + (1 + i)) (by omega)]
  · obtain rfl : i = 31 := by omega
    simp

private theorem rotl_rotr (x : DesWord) :
    (((x <<< 31) ||| (x >>> 1)) <<< 1) ||| (((x <<< 31) ||| (x >>> 1)) >>> 31) = x := by
  ext i hi
  simp only [BitVec.getElem_or, BitVec.getElem_shiftLeft, BitVec.getElem_ushiftRight,
    BitVec.getLsbD_or, BitVec.getLsbD_shiftLeft, BitVec.getLsbD_ushiftRight]
  by_cases h : i = 0
  · subst h
    simp
  · simp [show ¬i < 1 by omega, show i - 1 < 31 by omega, show 1 + (i - 1) = i by omega,
      BitVec.getLsbD_eq_getElem hi, BitVec.getLsbD_of_ge x (1 + (31 + i)) (by omega)]

/-- **The final permutation undoes the initial one.** -/
theorem desFP_desIP {x y x' y' : DesWord} (h : desIP x y = (x', y')) : desFP x' y' = (x, y) := by
  rcases h₁ : swapBits 4 0x0F0F0F0F x y with ⟨x₁, y₁⟩
  rcases h₂ : swapBits 16 0x0000FFFF x₁ y₁ with ⟨x₂, y₂⟩
  rcases h₃ : swapBits 2 0x33333333 y₂ x₂ with ⟨y₃, x₃⟩
  rcases h₄ : swapBits 8 0x00FF00FF y₃ x₃ with ⟨y₄, x₄⟩
  rcases h₅ : swapBits 0 0xAAAAAAAA x₄ ((y₄ <<< 1) ||| (y₄ >>> 31)) with ⟨x₅, y₅⟩
  simp only [desIP, h₁, h₂, h₃, h₄, and_ones, h₅] at h
  cases h
  simp only [desFP, and_ones, rotr_rotl, swapBits_swapBits (by decide) h₅,
    swapBits_swapBits (by decide) h₄, swapBits_swapBits (by decide) h₃,
    swapBits_swapBits (by decide) h₂, swapBits_swapBits (by decide) h₁]

/-- **The initial permutation undoes the final one.** -/
theorem desIP_desFP {x y x' y' : DesWord} (h : desFP x y = (x', y')) : desIP x' y' = (x, y) := by
  rcases h₁ : swapBits 0 0xAAAAAAAA ((x <<< 31) ||| (x >>> 1)) y with ⟨x₁, y₁⟩
  rcases h₂ : swapBits 8 0x00FF00FF ((y₁ <<< 31) ||| (y₁ >>> 1)) x₁ with ⟨y₂, x₂⟩
  rcases h₃ : swapBits 2 0x33333333 y₂ x₂ with ⟨y₃, x₃⟩
  rcases h₄ : swapBits 16 0x0000FFFF x₃ y₃ with ⟨x₄, y₄⟩
  rcases h₅ : swapBits 4 0x0F0F0F0F x₄ y₄ with ⟨x₅, y₅⟩
  simp only [desFP, and_ones, h₁, h₂, h₃, h₄, h₅] at h
  cases h
  simp only [desIP, and_ones, rotl_rotr, swapBits_swapBits (by decide) h₅,
    swapBits_swapBits (by decide) h₄, swapBits_swapBits (by decide) h₃,
    swapBits_swapBits (by decide) h₂, swapBits_swapBits (by decide) h₁]

/-! ## Rounds -/

/-- Exclusive or. -/
def desMixing : Mixing DesWord where
  mix x k := x ^^^ k
  mix_mix x k := by rw [BitVec.xor_assoc, BitVec.xor_self, BitVec.xor_zero]

/-- The function of a round. -/
def roundFunction (k₁ k₂ x : DesWord) : DesWord := (desMix k₁ k₂ x).1 ^^^ (desMix k₁ k₂ x).2

/-- The functions of the rounds. -/
def roundFunctions : List DesWord → List (DesWord → DesWord)
  | k₁ :: k₂ :: sk => roundFunction k₁ k₂ :: roundFunctions sk
  | _ => []

private theorem desMixing_round (k₁ k₂ x y : DesWord) :
    desMixing.round (roundFunction k₁ k₂) (x, y) = (y, desRound k₁ k₂ y x) := by
  rw [desRound, BitVec.xor_assoc]
  rfl

/-- The rounds are a Feistel network. -/
theorem desRounds_eq {sk : List DesWord} (h : sk.length % 4 = 0) (p : DesWord × DesWord) :
    desRounds sk p = desMixing.network (roundFunctions sk) p := by
  fun_induction desRounds sk p with
  | case1 k₁ k₂ k₃ k₄ sk x y x' y' ih =>
    rw [List.length_cons, List.length_cons, List.length_cons, List.length_cons] at h
    rw [ih (by omega), roundFunctions, roundFunctions, Mixing.network, Mixing.network,
      desMixing_round, desMixing_round]
  | case2 sk p hshort =>
    rcases sk with _ | ⟨k₁, _ | ⟨k₂, _ | ⟨k₃, _ | ⟨k₄, sk⟩⟩⟩⟩
    · rfl
    · cases h
    · cases h
    · cases h
    · exact absurd rfl (hshort k₁ k₂ k₃ k₄ sk p.1 p.2 rfl)

/-! ## Subkeys -/

private theorem length_subkeys (n i : ℕ) (x y : DesWord) : (subkeys n i x y).length = 2 * n := by
  induction n generalizing i x y with
  | zero => rfl
  | succ n ih =>
    rw [subkeys, List.length_cons, List.length_cons, ih]
    omega

private theorem length_desMainKs (key : List UInt8) : (desMainKs key).length = 32 :=
  length_subkeys 16 0 _ _

private theorem exists_pairs {n : ℕ} {sk : List DesWord} (h : sk.length = 2 * n) :
    ∃ ps : List (DesWord × DesWord), ps.length = n ∧ sk = ps.flatMap fun p ↦ [p.1, p.2] := by
  induction n generalizing sk with
  | zero => exact ⟨[], rfl, List.length_eq_zero_iff.mp h⟩
  | succ n ih =>
    rcases sk with _ | ⟨k₁, _ | ⟨k₂, sk⟩⟩
    · cases h
    · rw [List.length_singleton] at h
      omega
    · rw [List.length_cons, List.length_cons] at h
      obtain ⟨ps, hlen, rfl⟩ := @ih sk (by omega)
      exact ⟨(k₁, k₂) :: ps, by rw [List.length_cons, hlen], rfl⟩

private theorem roundFunctions_pairs (ps : List (DesWord × DesWord)) :
    roundFunctions (ps.flatMap fun p ↦ [p.1, p.2]) = ps.map fun p ↦ roundFunction p.1 p.2 := by
  induction ps with
  | nil => rfl
  | cons p ps ih =>
    show roundFunction p.1 p.2 :: roundFunctions (ps.flatMap fun p ↦ [p.1, p.2]) = _
    rw [ih, List.map_cons]

private theorem getD_pairs (ps : List (DesWord × DesWord)) (i : ℕ) :
    (ps.flatMap fun p ↦ [p.1, p.2]).getD (2 * i) 0 = (ps.getD i (0, 0)).1 ∧
      (ps.flatMap fun p ↦ [p.1, p.2]).getD (2 * i + 1) 0 = (ps.getD i (0, 0)).2 := by
  induction ps generalizing i with
  | nil => exact ⟨rfl, rfl⟩
  | cons p ps ih =>
    cases i with
    | zero => exact ⟨rfl, rfl⟩
    | succ i => exact ih i

/-- **The subkeys are taken in the opposite order.** -/
theorem reverseKeys_pairs {ps : List (DesWord × DesWord)} (h : ps.length = 16) :
    reverseKeys (ps.flatMap fun p ↦ [p.1, p.2]) = ps.reverse.flatMap fun p ↦ [p.1, p.2] := by
  have hreverse : ps.reverse = (List.range 16).map fun n ↦ ps.getD (15 - n) (0, 0) := by
    refine List.ext_getElem (by simp [h]) fun n hn hn' ↦ ?_
    rw [List.length_reverse, h] at hn
    rw [List.getElem_reverse, List.getElem_map, List.getElem_range,
      List.getD_eq_getElem?_getD, List.getElem?_eq_getElem (by omega), Option.getD_some]
    simp only [h]
  rw [hreverse, reverseKeys, List.flatMap_map]
  refine List.flatMap_congr fun n hn ↦ ?_
  have hlt : n < 16 := List.mem_range.mp hn
  obtain ⟨h₁, h₂⟩ := getD_pairs ps (15 - n)
  rw [show 30 - 2 * n = 2 * (15 - n) by omega, show 31 - 2 * n = 2 * (15 - n) + 1 by omega, h₁, h₂]

private theorem length_reverseKeys (sk : List DesWord) : (reverseKeys sk).length = 32 := by
  simp [reverseKeys]

private theorem roundFunctions_reverseKeys {sk : List DesWord} (h : sk.length = 32) :
    roundFunctions (reverseKeys sk) = (roundFunctions sk).reverse := by
  obtain ⟨ps, hlen, rfl⟩ := exists_pairs (n := 16) h
  rw [reverseKeys_pairs hlen, roundFunctions_pairs, roundFunctions_pairs, List.map_reverse]

/-! ## Decryption -/

@[simp] theorem length_desCrypt (sk : List DesWord) (input : List UInt8) :
    (desCrypt sk input).length = 8 := rfl

/-- **Decryption undoes encryption,** and the other way round. -/
theorem desCrypt_desCrypt {sk sk' : List DesWord} (h : sk.length = 32) (h' : sk'.length = 32)
    (hreverse : roundFunctions sk' = (roundFunctions sk).reverse) {input : List UInt8}
    (hinput : input.length = 8) : desCrypt sk' (desCrypt sk input) = input := by
  rcases hip : desIP (getUint32 input 0) (getUint32 input 4) with ⟨x, y⟩
  rcases hrounds : desRounds sk (x, y) with ⟨x', y'⟩
  rcases hfp : desFP y' x' with ⟨y₁, x₁⟩
  have hcrypt : desCrypt sk input = putUint32 y₁ ++ putUint32 x₁ := by
    simp only [desCrypt, hip, hrounds, hfp]
  have hback : desRounds sk' (y', x') = (y, x) := by
    rw [desRounds_eq (by omega)] at hrounds ⊢
    have := desMixing.network_reverse (roundFunctions sk) (x, y)
    rw [hrounds] at this
    rw [hreverse]
    exact this
  obtain ⟨hget, hget'⟩ := getUint32_putUint32 y₁ x₁
  rw [hcrypt]
  simp only [desCrypt, hget, hget', desIP_desFP hfp, hback, desFP_desIP hip]
  exact putUint32_getUint32 hinput

variable {key input : List UInt8}

theorem decrypt_encrypt (h : input.length = 8) :
    desCrypt (reverseKeys (desMainKs key)) (desCrypt (desMainKs key) input) = input :=
  desCrypt_desCrypt (length_desMainKs key) (length_reverseKeys _)
    (roundFunctions_reverseKeys (length_desMainKs key)) h

theorem encrypt_decrypt (h : input.length = 8) :
    desCrypt (desMainKs key) (desCrypt (reverseKeys (desMainKs key)) input) = input := by
  refine desCrypt_desCrypt (length_reverseKeys _) (length_desMainKs key) ?_ h
  rw [roundFunctions_reverseKeys (length_desMainKs key), List.reverse_reverse]

/-- The test vector that is used most. -/
example : desCrypt (desMainKs [0x13, 0x34, 0x57, 0x79, 0x9b, 0xbc, 0xdf, 0xf1])
    [0x01, 0x23, 0x45, 0x67, 0x89, 0xab, 0xcd, 0xef] =
      [0x85, 0xe8, 0x13, 0x54, 0x0f, 0x0a, 0xb4, 0x05] := by
  decide +kernel

end ZTask
