import Uros.Foundation.Bytes

/-!
SHA-256 and HMAC-SHA-256 as `libcap` and the kernel compute them.

`mach_services/lib/libcap/{sha256,hmac_sha256}.c` and `mach_kernel/kern/` carry
the same text.  The library additionally dispatches the block function, so the
compression is a parameter of everything above it: the kernel always runs
`sha256CompressC`, the library the function that the dispatch selected.
-/

namespace Uros.Cap

open Uros.Foundation

abbrev Digest := Vector UInt8 32

abbrev HashState := Vector UInt32 8

abbrev Compress := HashState → Bytes → HashState

def roundConstants : Array UInt32 := #[
  0x428a2f98, 0x71374491, 0xb5c0fbcf, 0xe9b5dba5,
  0x3956c25b, 0x59f111f1, 0x923f82a4, 0xab1c5ed5,
  0xd807aa98, 0x12835b01, 0x243185be, 0x550c7dc3,
  0x72be5d74, 0x80deb1fe, 0x9bdc06a7, 0xc19bf174,
  0xe49b69c1, 0xefbe4786, 0x0fc19dc6, 0x240ca1cc,
  0x2de92c6f, 0x4a7484aa, 0x5cb0a9dc, 0x76f988da,
  0x983e5152, 0xa831c66d, 0xb00327c8, 0xbf597fc7,
  0xc6e00bf3, 0xd5a79147, 0x06ca6351, 0x14292967,
  0x27b70a85, 0x2e1b2138, 0x4d2c6dfc, 0x53380d13,
  0x650a7354, 0x766a0abb, 0x81c2c92e, 0x92722c85,
  0xa2bfe8a1, 0xa81a664b, 0xc24b8b70, 0xc76c51a3,
  0xd192e819, 0xd6990624, 0xf40e3585, 0x106aa070,
  0x19a4c116, 0x1e376c08, 0x2748774c, 0x34b0bcb5,
  0x391c0cb3, 0x4ed8aa4a, 0x5b9cca4f, 0x682e6ff3,
  0x748f82ee, 0x78a5636f, 0x84c87814, 0x8cc70208,
  0x90befffa, 0xa4506ceb, 0xbef9a3f7, 0xc67178f2]

def rotr (x n : UInt32) : UInt32 := (x >>> n) ||| (x <<< (32 - n))

def blockWord (block : Bytes) (i : Nat) : UInt32 :=
  let byte (j : Nat) : UInt32 := (block.getD (4 * i + j) 0).toUInt32
  (byte 0 <<< 24) ||| (byte 1 <<< 16) ||| (byte 2 <<< 8) ||| byte 3

def messageSchedule (block : Bytes) : Array UInt32 :=
  (List.range 64).foldl
    (fun W i =>
      if i < 16 then W.push (blockWord block i)
      else
        let w15 := W.getD (i - 15) 0
        let w2 := W.getD (i - 2) 0
        let s0 := rotr w15 7 ^^^ rotr w15 18 ^^^ (w15 >>> 3)
        let s1 := rotr w2 17 ^^^ rotr w2 19 ^^^ (w2 >>> 10)
        W.push (W.getD (i - 16) 0 + s0 + W.getD (i - 7) 0 + s1))
    #[]

def sha256Round (v : HashState) (k w : UInt32) : HashState :=
  let ⟨a, b, c, d⟩ := (v[0], v[1], v[2], v[3])
  let ⟨e, f, g, h⟩ := (v[4], v[5], v[6], v[7])
  let S1 := rotr e 6 ^^^ rotr e 11 ^^^ rotr e 25
  let ch := (e &&& f) ^^^ (~~~e &&& g)
  let t1 := h + S1 + ch + k + w
  let S0 := rotr a 2 ^^^ rotr a 13 ^^^ rotr a 22
  let mj := (a &&& b) ^^^ (a &&& c) ^^^ (b &&& c)
  let t2 := S0 + mj
  #v[t1 + t2, a, b, c, d + t1, e, f, g]

def varA (v : HashState) : UInt32 := v[0]

def varB (v : HashState) : UInt32 := v[1]

def varC (v : HashState) : UInt32 := v[2]

def varD (v : HashState) : UInt32 := v[3]

def varE (v : HashState) : UInt32 := v[4]

def varF (v : HashState) : UInt32 := v[5]

def varG (v : HashState) : UInt32 := v[6]

def varH (v : HashState) : UInt32 := v[7]

def sha256CompressC : Compress := fun state block =>
  let W := messageSchedule block
  let v := (List.range 64).foldl
    (fun v i => sha256Round v (roundConstants.getD i 0) (W.getD i 0)) state
  Vector.zipWith (· + ·) state v

structure Sha256Ctx where
  state : HashState
  bitcount : UInt64
  buf : Bytes

def sha256Init : Sha256Ctx where
  state := #v[0x6a09e667, 0xbb67ae85, 0x3c6ef372, 0xa54ff53a,
    0x510e527f, 0x9b05688c, 0x1f83d9ab, 0x5be0cd19]
  bitcount := 0
  buf := []

section Hashing

variable (compress : Compress)

def compressBlocks : Nat → HashState → Bytes → HashState
  | 0, state, _ => state
  | blocks + 1, state, data =>
    compressBlocks blocks (compress state (data.take 64)) (data.drop 64)

def sha256Update (ctx : Sha256Ctx) (data : Bytes) : Sha256Ctx :=
  -- Top up a partly filled buffer before whole blocks are taken from `data`.
  let n := if ctx.buf.length = 0 then 0 else min (64 - ctx.buf.length) data.length
  let filled := ctx.buf ++ data.take n
  let state := if filled.length = 64 then compress ctx.state filled else ctx.state
  let rest := data.drop n
  let blocks := rest.length / 64
  { state := compressBlocks compress blocks state rest
    bitcount := ctx.bitcount + UInt64.ofNat data.length * 8
    -- `buflen` is set to what is left of `data`, also when the top-up above did
    -- not complete a block.
    buf := rest.drop (64 * blocks) }

def sha256Final (ctx : Sha256Ctx) : Digest :=
  let bits := ctx.bitcount
  let buf := ctx.buf ++ [0x80]
  let state :=
    if 56 < buf.length then
      compress ctx.state (buf ++ List.replicate (64 - buf.length) 0)
    else ctx.state
  let buf := if 56 < buf.length then [] else buf
  let lengthBytes := (leBytes 8 bits.toNat).reverse
  let state :=
    compress state (buf ++ List.replicate (56 - buf.length) 0 ++ lengthBytes)
  Vector.ofFn fun i =>
    (state.toArray.getD (i / 4) 0 >>> (24 - 8 * UInt32.ofNat (i % 4))).toUInt8

def sha256 (data : Bytes) : Digest :=
  sha256Final compress (sha256Update compress sha256Init data)

def hmacSha256 (key msg : Bytes) : Digest :=
  let block := if 64 < key.length then (sha256 compress key).toList else key
  let kBlock := block ++ List.replicate (64 - block.length) 0
  let ipad := kBlock.map (· ^^^ 0x36)
  let opad := kBlock.map (· ^^^ 0x5c)
  let inner := sha256Final compress
    (sha256Update compress (sha256Update compress sha256Init ipad) msg)
  sha256Final compress
    (sha256Update compress (sha256Update compress sha256Init opad) inner.toList)

end Hashing

abbrev Mac := Bytes → Bytes → Digest

def portableHmac : Mac := hmacSha256 sha256CompressC

def hmacSha256Equal (a b : Digest) : Bool :=
  (List.finRange 32).foldl (fun diff i => diff ||| (a[i] ^^^ b[i])) (0 : UInt8) == 0

private theorem foldl_or_eq_zero {ι : Type} (diff : ι → UInt8) (start : UInt8)
    (indices : List ι) :
    indices.foldl (fun acc i => acc ||| diff i) start = 0 ↔
      start = 0 ∧ ∀ i ∈ indices, diff i = 0 := by
  induction indices generalizing start with
  | nil => simp
  | cons i indices ih => simp [ih, UInt8.or_eq_zero_iff, and_assoc]

theorem hmacSha256Equal_iff {a b : Digest} : hmacSha256Equal a b = true ↔ a = b := by
  rw [hmacSha256Equal, beq_iff_eq, foldl_or_eq_zero]
  constructor
  · rintro ⟨-, hdiff⟩
    apply Vector.ext
    intro i hi
    exact UInt8.xor_eq_zero_iff.mp (hdiff ⟨i, hi⟩ (List.mem_finRange _))
  · rintro rfl
    simp

end Uros.Cap
