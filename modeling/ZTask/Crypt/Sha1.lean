import ZTask.Lib.Block
import ZTask.Lib.SecureHash

/-!
# SHA-1

`lsha1.c`. A block is hashed by eighty rounds of five macros, which go round the five working
variables and keep the last sixteen words of the schedule in the block itself. `sat_SHA1_Update`
takes a text in pieces and keeps what does not fill a block yet; nothing of the buffer of a new
context has been written.
-/

namespace ZTask

open Lib

/-- Why a function does not return. -/
inductive Sha1Fault
  /-- The buffer is accessed outside, or read before it is written. -/
  | outside
  /-- The bound of a loop is exceeded. -/
  | unbounded
deriving DecidableEq, Repr

abbrev Sha1 := Except Sha1Fault

/-! ## `SHA1_Transform` -/

/-- `rol` -/
def rol (value bits : UInt32) : UInt32 := value <<< bits ||| value >>> (32 - bits)

/-- The working variables `a` to `e`, and `block.l`. -/
structure Sha1Vars where
  regs : Vector UInt32 5
  l : Vector UInt32 16

/-- `block.l[i & 15]` -/
def wordOf (l : Vector UInt32 16) (i : ℕ) : UInt32 := l.get (Fin.ofNat 16 i)

/-- `block.l[i & 15] = x` -/
def setWord (l : Vector UInt32 16) (i : ℕ) (x : UInt32) : Vector UInt32 16 :=
  l.set (i % 16) x (Nat.mod_lt i (by decide))

/-- `blk0` -/
def blk0 (l : Vector UInt32 16) (i : ℕ) : Vector UInt32 16 :=
  setWord l i (rol (wordOf l i) 24 &&& 0xFF00FF00 ||| rol (wordOf l i) 8 &&& 0x00FF00FF)

/-- `blk` -/
def blk (l : Vector UInt32 16) (i : ℕ) : Vector UInt32 16 :=
  setWord l i (rol (wordOf l (i + 13) ^^^ wordOf l (i + 8) ^^^ wordOf l (i + 2) ^^^ wordOf l i) 1)

/-- What the five macros do: `z += f(w,x,y) + blk(i) + k + rol(v,5); w = rol(w,30);`. -/
def shaMacro (f : UInt32 → UInt32 → UInt32 → UInt32) (k : UInt32)
    (blk : Vector UInt32 16 → ℕ → Vector UInt32 16) (v w x y z : Fin 5) (i : ℕ) (s : Sha1Vars) :
    Sha1Vars :=
  let l := blk s.l i
  let regs := s.regs.set z
    (s.regs.get z + (f (s.regs.get w) (s.regs.get x) (s.regs.get y) + wordOf l i + k +
      rol (s.regs.get v) 5))
  { regs := regs.set w (rol (regs.get w) 30), l }

def R0 := shaMacro (fun w x y ↦ (w &&& (x ^^^ y)) ^^^ y) 0x5A827999 blk0

def R1 := shaMacro (fun w x y ↦ (w &&& (x ^^^ y)) ^^^ y) 0x5A827999 blk

def R2 := shaMacro (fun w x y ↦ w ^^^ x ^^^ y) 0x6ED9EBA1 blk

def R3 := shaMacro (fun w x y ↦ ((w ||| x) &&& y) ||| (w &&& x)) 0x8F1BBCDC blk

def R4 := shaMacro (fun w x y ↦ w ^^^ x ^^^ y) 0xCA62C1D6 blk

/-- The macro of a round. -/
def macroOf (i : ℕ) : Fin 5 → Fin 5 → Fin 5 → Fin 5 → Fin 5 → ℕ → Sha1Vars → Sha1Vars :=
  if i < 16 then R0 else if i < 20 then R1 else if i < 40 then R2 else if i < 60 then R3 else R4

/-- A round: `(a,b,c,d,e)` in round 0, `(e,a,b,c,d)` in round 1, and so on. -/
def sha1Round (s : Sha1Vars) (i : ℕ) : Sha1Vars :=
  let r := Fin.ofNat 5 i
  macroOf i (0 - r) (1 - r) (2 - r) (3 - r) (4 - r) i s

theorem get_set (v : Vector UInt32 5) (z y : Fin 5) (x : UInt32) :
    (v.set z x).get y = if z = y then x else v.get y := by
  have hget : ∀ v : Vector UInt32 5, v.get y = v[y.val] := fun _ ↦ rfl
  rw [hget, hget, Vector.getElem_set]
  exact if_congr Fin.ext_iff.symm rfl rfl

/-- The words of the standard: the working variables, from where they are in round `r` on. -/
def chainOf (v : Vector UInt32 5) (r : Fin 5) : ShaChain :=
  ⟨v.get (0 - r), v.get (1 - r), v.get (2 - r), v.get (3 - r), v.get (4 - r)⟩

/-- `memcpy(&block, buffer, 64)`: the words of the block, the least significant byte first. -/
def loadBlock (buffer : List UInt8) : Vector UInt32 16 :=
  Vector.ofFn fun i ↦ UInt32.ofNat (ofLittle ((buffer.drop (i * 4)).take 4))

/-- `SHA1_Transform` -/
def sha1Transform (state : Vector UInt32 5) (buffer : List UInt8) : Vector UInt32 5 :=
  let s := (List.range 80).foldl sha1Round ⟨state, loadBlock buffer⟩
  state.zipWith (· + ·) s.regs

/-! ## Contexts -/

/-- `SHA1_CTX` -/
structure Sha1Ctx where
  state : Vector UInt32 5
  count0 : UInt32
  count1 : UInt32
  buffer : Lib.Block UInt8

/-- `sat_SHA1_Init` -/
def satSha1Init : Sha1Ctx :=
  ⟨#v[0x67452301, 0xEFCDAB89, 0x98BADCFE, 0x10325476, 0xC3D2E1F0], 0, 0, .alloc 64⟩

/-- `memcpy` to the buffer. -/
def fillBuffer (buffer : Lib.Block UInt8) (j : ℕ) (data : List UInt8) : Sha1 (Lib.Block UInt8) :=
  match buffer.write? j data with
  | some buffer => .ok buffer
  | none => .error .outside

/-- The buffer as `SHA1_Transform` takes it. -/
def wholeBuffer (buffer : Lib.Block UInt8) : Sha1 (List UInt8) :=
  match buffer.read? 64 with
  | some bytes => .ok bytes
  | none => .error .outside

/-- `for ( ; i + 63 < len; i += 64)`: the state, and `i`. -/
def transformLoop (data : List UInt8) : ℕ → ℕ → Vector UInt32 5 → Sha1 (Vector UInt32 5 × ℕ)
  | 0, i, state => if i + 63 < data.length then .error .unbounded else .ok (state, i)
  | fuel + 1, i, state =>
    if i + 63 < data.length then
      transformLoop data fuel (i + 64) (sha1Transform state ((data.drop i).take 64))
    else .ok (state, i)

/-- `context->count`, with the bits of `len` bytes more. -/
def addCount (count0 count1 : UInt32) (len : UInt64) : UInt32 × UInt32 :=
  let count0 := (count0.toUInt64 + (len <<< 3)).toUInt32
  let count1 := if count0.toUInt64 < len <<< 3 then count1 + 1 else count1
  (count0, count1 + (len >>> 29).toUInt32)

/-- `sat_SHA1_Update` -/
def satSha1Update (ctx : Sha1Ctx) (data : List UInt8) : Sha1 Sha1Ctx := do
  let j := (ctx.count0 >>> 3 &&& 63).toNat
  let (count0, count1) := addCount ctx.count0 ctx.count1 (UInt64.ofNat data.length)
  if 63 < j + data.length then
    let buffer ← fillBuffer ctx.buffer j (data.take (64 - j))
    let bytes ← wholeBuffer buffer
    let (state, i) ← transformLoop data data.length (64 - j) (sha1Transform ctx.state bytes)
    let buffer ← fillBuffer buffer 0 (data.drop i)
    return { state, count0, count1, buffer }
  else
    let buffer ← fillBuffer ctx.buffer j data
    return { ctx with count0, count1, buffer }

/-- `finalcount` -/
def finalcount (ctx : Sha1Ctx) : List UInt8 :=
  (List.range 8).map fun i ↦
    ((if 4 ≤ i then ctx.count0 else ctx.count1) >>> UInt32.ofNat ((3 - (i &&& 3)) *
      8) &&& 255).toUInt8

/-- `while ((context->count[0] & 504) != 448)` -/
def padLoop : ℕ → Sha1Ctx → Sha1 Sha1Ctx
  | 0, ctx => if ctx.count0 &&& 504 ≠ 448 then .error .unbounded else .ok ctx
  | fuel + 1, ctx =>
    if ctx.count0 &&& 504 ≠ 448 then do
      let ctx ← satSha1Update ctx [0]
      padLoop fuel ctx
    else .ok ctx

/-- `digest` -/
def digestOf (ctx : Sha1Ctx) : List UInt8 :=
  (List.range 20).map fun i ↦
    (ctx.state.get (Fin.ofNat 5 (i >>> 2)) >>> UInt32.ofNat ((3 - (i &&& 3)) * 8) &&& 255).toUInt8

/-- `sat_SHA1_Final` -/
def satSha1Final (ctx : Sha1Ctx) : Sha1 (List UInt8) := do
  let count := finalcount ctx
  let ctx ← satSha1Update ctx [0x80]
  let ctx ← padLoop 64 ctx
  let ctx ← satSha1Update ctx count
  return digestOf ctx

/-! ## The functions of the library -/

/-- `lsha1` -/
def lsha1 (buffer : List UInt8) : Sha1 (List UInt8) := do
  let ctx ← satSha1Update satSha1Init buffer
  satSha1Final ctx

/-- `xor_key` -/
def xorKey (key : List UInt8) (xor : UInt32) : List UInt8 :=
  key.mapIdx fun i c ↦ c ^^^ (xor >>> UInt32.ofNat (i % 4 * 8)).toUInt8

/-- The key as a block: `rkey`. -/
def hmacKey (key : List UInt8) : Sha1 (List UInt8) := do
  if 64 < key.length then
    let ctx ← satSha1Update satSha1Init key
    let digest ← satSha1Final ctx
    return digest ++ List.replicate (64 - digest.length) 0
  else return key ++ List.replicate (64 - key.length) 0

/-- `lhmac_sha1` -/
def lhmacSha1 (key text : List UInt8) : Sha1 (List UInt8) := do
  let rkey ← hmacKey key
  let rkey := xorKey rkey 0x5c5c5c5c
  let ctx1 ← satSha1Update satSha1Init rkey
  let rkey := xorKey rkey (0x5c5c5c5c ^^^ 0x36363636)
  let ctx2 ← satSha1Update satSha1Init rkey
  let ctx2 ← satSha1Update ctx2 text
  let digest2 ← satSha1Final ctx2
  let ctx1 ← satSha1Update ctx1 digest2
  satSha1Final ctx1

end ZTask
