import Mathlib.Data.List.OfFn
import Uros.Cap.Hashing

/-!
The HMAC of `libcap` against the standards.

The first part states SHA-256 as FIPS 180-4 does and HMAC as RFC 2104 does, in their own
terms: the constants are bits of roots of primes, the schedule is a recurrence, a message
is padded and parsed into blocks before anything is hashed.  The second part shows that
the code computes these functions.
-/

namespace Uros.Cap.Fips

open Uros.Foundation

def root (k n : Nat) : (bits r : Nat) → Nat
  | 0, r => r
  | bit + 1, r => root k n bit (if (r + 2 ^ bit) ^ k ≤ n then r + 2 ^ bit else r)

def rootFraction (k p : Nat) : UInt32 := UInt32.ofNat (root k (p * 2 ^ (32 * k)) 40 0)

def primesBelow (n : Nat) : List Nat :=
  (List.range n).filter fun p => 2 ≤ p && (List.range p).all fun d => d < 2 || p % d != 0

def K (t : Nat) : UInt32 := ((primesBelow 312).map (rootFraction 3)).getD t 0

def H₀ : HashState := Vector.ofFn fun i => rootFraction 2 ((primesBelow 20).getD i 0)

def ROTR (n : Nat) (x : UInt32) : UInt32 := ⟨x.toBitVec.rotateRight n⟩

def SHR (n : Nat) (x : UInt32) : UInt32 := ⟨x.toBitVec >>> n⟩

def Ch (x y z : UInt32) : UInt32 := (x &&& y) ^^^ (~~~x &&& z)

def Maj (x y z : UInt32) : UInt32 := (x &&& y) ^^^ (x &&& z) ^^^ (y &&& z)

def bigSigma0 (x : UInt32) : UInt32 := ROTR 2 x ^^^ ROTR 13 x ^^^ ROTR 22 x

def bigSigma1 (x : UInt32) : UInt32 := ROTR 6 x ^^^ ROTR 11 x ^^^ ROTR 25 x

def smallSigma0 (x : UInt32) : UInt32 := ROTR 7 x ^^^ ROTR 18 x ^^^ SHR 3 x

def smallSigma1 (x : UInt32) : UInt32 := ROTR 17 x ^^^ ROTR 19 x ^^^ SHR 10 x

def M (block : Bytes) (t : Nat) : UInt32 :=
  UInt32.ofNat (leNat ((block.drop (4 * t)).take 4).reverse)

def W (block : Bytes) (t : Nat) : UInt32 :=
  if t < 16 then M block t
  else smallSigma1 (W block (t - 2)) + W block (t - 7) + smallSigma0 (W block (t - 15)) +
    W block (t - 16)

def working (H : HashState) (block : Bytes) : Nat → HashState
  | 0 => H
  | t + 1 =>
    let v := working H block t
    let T₁ := varH v + bigSigma1 (varE v) + Ch (varE v) (varF v) (varG v) + K t + W block t
    let T₂ := bigSigma0 (varA v) + Maj (varA v) (varB v) (varC v)
    #v[T₁ + T₂, varA v, varB v, varC v, varD v + T₁, varE v, varF v, varG v]

def addWords (v w : HashState) : HashState := Vector.ofFn fun i => v[i] + w[i]

def hashBlock (H : HashState) (block : Bytes) : HashState := addWords (working H block 64) H

def bigEndian (width n : Nat) : Bytes := (leBytes width n).reverse

def zeros (length : Nat) : Nat := (119 - length % 64) % 64

def pad (message : Bytes) : Bytes :=
  message ++ [0x80] ++ List.replicate (zeros message.length) 0 ++
    bigEndian 8 (8 * message.length)

def blocks (padded : Bytes) : List Bytes :=
  (List.range (padded.length / 64)).map fun i => (padded.drop (64 * i)).take 64

def SHA256 (message : Bytes) : Bytes :=
  ((blocks (pad message)).foldl hashBlock H₀).toList.flatMap fun word =>
    bigEndian 4 word.toNat

def HMAC (key text : Bytes) : Bytes :=
  let key := if 64 < key.length then SHA256 key else key
  let K₀ := key ++ List.replicate (64 - key.length) 0
  SHA256 (K₀.map (· ^^^ 0x5c) ++ SHA256 (K₀.map (· ^^^ 0x36) ++ text))

end Uros.Cap.Fips

namespace Uros.Cap

open Uros.Foundation Fips

theorem roundConstants_getD (t : Nat) : roundConstants.getD t 0 = K t := by
  have hall : roundConstants.toList = (primesBelow 312).map (rootFraction 3) := by
    decide +kernel
  rw [K, ← hall]
  simp [Array.getD_eq_getD_getElem?, List.getD_eq_getElem?_getD]

theorem sha256Init_state : sha256Init.state = H₀ := by decide +kernel

theorem smallSigma0_eq (x : UInt32) :
    rotr x 7 ^^^ rotr x 18 ^^^ (x >>> 3) = smallSigma0 x := rfl

theorem smallSigma1_eq (x : UInt32) :
    rotr x 17 ^^^ rotr x 19 ^^^ (x >>> 10) = smallSigma1 x := rfl

theorem word_of_bytes (a b c d : UInt8) :
    (a.toUInt32 <<< 24) ||| (b.toUInt32 <<< 16) ||| (c.toUInt32 <<< 8) ||| d.toUInt32 =
      UInt32.ofNat (leNat [d, c, b, a]) := by
  have ha := a.toNat_lt
  have hb := b.toNat_lt
  have hc := c.toNat_lt
  have hd := d.toNat_lt
  have hab : a.toNat <<< 24 ||| b.toNat <<< 16 = (a.toNat * 256 + b.toNat) <<< 16 := by
    rw [← Nat.shiftLeft_add_eq_or_of_lt (by rw [Nat.shiftLeft_eq]; omega)]
    simp only [Nat.shiftLeft_eq]
    omega
  have habc : (a.toNat * 256 + b.toNat) <<< 16 ||| c.toNat <<< 8 =
      ((a.toNat * 256 + b.toNat) * 256 + c.toNat) <<< 8 := by
    rw [← Nat.shiftLeft_add_eq_or_of_lt (by rw [Nat.shiftLeft_eq]; omega)]
    simp only [Nat.shiftLeft_eq]
    omega
  have ha24 : a.toNat <<< 24 % 2 ^ 32 = a.toNat <<< 24 := by
    rw [Nat.shiftLeft_eq]
    omega
  have hb16 : b.toNat <<< 16 % 2 ^ 32 = b.toNat <<< 16 := by
    rw [Nat.shiftLeft_eq]
    omega
  have hc8 : c.toNat <<< 8 % 2 ^ 32 = c.toNat <<< 8 := by
    rw [Nat.shiftLeft_eq]
    omega
  apply UInt32.toNat_inj.mp
  simp only [UInt32.toNat_or, UInt32.toNat_shiftLeft, UInt8.toNat_toUInt32, UInt32.reduceToNat,
    Nat.reduceMod, ha24, hb16, hc8]
  rw [hab, habc, ← Nat.shiftLeft_add_eq_or_of_lt hd, Nat.shiftLeft_eq, UInt32.toNat_ofNat']
  simp only [leNat]
  omega

theorem blockWord_eq {block : Bytes} {t : Nat} (hlen : block.length = 64) (ht : t < 16) :
    blockWord block t = M block t := by
  have hfour : (block.drop (4 * t)).take 4 =
      [block.getD (4 * t) 0, block.getD (4 * t + 1) 0, block.getD (4 * t + 2) 0,
        block.getD (4 * t + 3) 0] := by
    have hnext {i : Nat} (h : i < block.length) :
        block.drop i = block.getD i 0 :: block.drop (i + 1) := by
      rw [List.drop_eq_getElem_cons h]
      simp [List.getD_eq_getElem?_getD, h]
    rw [hnext (by omega), hnext (by omega), hnext (by omega), hnext (by omega)]
    rfl
  rw [M, hfour]
  exact word_of_bytes _ _ _ _

theorem scheduleTo_eq {block : Bytes} (hlen : block.length = 64) (n : Nat) :
    (List.range n).foldl
      (fun W i =>
        if i < 16 then W.push (blockWord block i)
        else
          let w15 := W.getD (i - 15) 0
          let w2 := W.getD (i - 2) 0
          let s0 := rotr w15 7 ^^^ rotr w15 18 ^^^ (w15 >>> 3)
          let s1 := rotr w2 17 ^^^ rotr w2 19 ^^^ (w2 >>> 10)
          W.push (W.getD (i - 16) 0 + s0 + W.getD (i - 7) 0 + s1))
      #[] = Array.ofFn fun i : Fin n => W block i := by
  induction n with
  | zero => rfl
  | succ n ih =>
    rw [List.range_succ, List.foldl_append, ih, Array.ofFn_succ]
    have hget {i : Nat} (hi : i < n) :
        (Array.ofFn fun i : Fin n => W block i).getD i 0 = W block i := by
      simp [Array.getD_eq_getD_getElem?, hi]
    simp only [List.foldl_cons, List.foldl_nil, Fin.val_castSucc]
    rw [W]
    split
    · rw [blockWord_eq hlen ‹_›]
    · rw [hget (by omega), hget (by omega), hget (by omega), hget (by omega),
        smallSigma0_eq, smallSigma1_eq]
      congr 1
      ac_rfl

theorem messageSchedule_getD {block : Bytes} {t : Nat} (hlen : block.length = 64)
    (ht : t < 64) : (messageSchedule block).getD t 0 = W block t := by
  have := scheduleTo_eq hlen 64
  rw [messageSchedule, this]
  simp [Array.getD_eq_getD_getElem?, ht]

theorem rounds_eq {block : Bytes} (state : HashState) (hlen : block.length = 64) {n : Nat}
    (hn : n ≤ 64) :
    (List.range n).foldl
      (fun v i => sha256Round v (roundConstants.getD i 0) ((messageSchedule block).getD i 0))
      state = working state block n := by
  induction n with
  | zero => rfl
  | succ n ih =>
    rw [List.range_succ, List.foldl_append, ih (by omega)]
    simp only [List.foldl_cons, List.foldl_nil]
    rw [roundConstants_getD, messageSchedule_getD hlen (by omega)]
    rfl

theorem sha256CompressC_eq {block : Bytes} (state : HashState) (hlen : block.length = 64) :
    sha256CompressC state block = hashBlock state block := by
  simp only [sha256CompressC]
  rw [rounds_eq state hlen (le_refl 64)]
  apply Vector.ext
  intro i hi
  simp [hashBlock, addWords, UInt32.add_comm]

theorem length_pad (message : Bytes) :
    (pad message).length = message.length + 1 + zeros message.length + 8 := by
  simp [pad, bigEndian]
  omega

theorem foldl_blocks_range (padded : Bytes) {n : Nat} (h : 64 * n ≤ padded.length)
    (state : HashState) :
    ((List.range n).map fun i => (padded.drop (64 * i)).take 64).foldl hashBlock state =
      compressBlocks sha256CompressC n state padded := by
  induction n with
  | zero => rfl
  | succ n ih =>
    rw [List.range_succ, List.map_append, List.foldl_append, ih (by omega),
      compressBlocks_succ, sha256CompressC_eq _ (by simp; omega)]
    rfl

theorem foldl_blocks (padded : Bytes) (state : HashState) :
    (blocks padded).foldl hashBlock state =
      compressBlocks sha256CompressC (padded.length / 64) state padded :=
  foldl_blocks_range padded (by omega) state

theorem leBytes_mod (width n : Nat) : leBytes width (n % 256 ^ width) = leBytes width n := by
  induction width generalizing n with
  | zero => rfl
  | succ width ih =>
    have hdiv : n % 256 ^ (width + 1) / 256 = n / 256 % 256 ^ width := by
      rw [Nat.pow_succ, Nat.mul_comm, Nat.mod_mul_right_div_self]
    have hlow : UInt8.ofNat (n % 256 ^ (width + 1)) = UInt8.ofNat n := by
      apply UInt8.toNat_inj.mp
      rw [UInt8.toNat_ofNat', UInt8.toNat_ofNat', Nat.pow_succ,
        Nat.mod_mul_left_mod]
    rw [leBytes, leBytes, hdiv, ih, hlow]

def finalState (compress : Compress) (ctx : Sha256Ctx) : HashState :=
  let buf := ctx.buf ++ [0x80]
  let state :=
    if 56 < buf.length then
      compress ctx.state (buf ++ List.replicate (64 - buf.length) 0)
    else ctx.state
  let buf := if 56 < buf.length then [] else buf
  compress state
    (buf ++ List.replicate (56 - buf.length) 0 ++ (leBytes 8 ctx.bitcount.toNat).reverse)

def digestBytes (state : HashState) : Digest :=
  Vector.ofFn fun i =>
    (state.toArray.getD (i / 4) 0 >>> (24 - 8 * UInt32.ofNat (i % 4))).toUInt8

theorem sha256Final_eq (compress : Compress) (ctx : Sha256Ctx) :
    sha256Final compress ctx = digestBytes (finalState compress ctx) := rfl

def padding (total : Bytes) : Bytes :=
  [0x80] ++ List.replicate (zeros total.length) 0 ++ bigEndian 8 (8 * total.length)

theorem drop_pad (total : Bytes) :
    (pad total).drop (64 * (total.length / 64)) = pendingOf total ++ padding total := by
  rw [pad, List.append_assoc, List.append_assoc, List.drop_append_of_le_length (by omega)]
  simp [pendingOf, padding]

theorem Absorbed.lengthBytes {compress : Compress} {ctx : Sha256Ctx} {total : Bytes}
    (h : Absorbed compress ctx total) :
    (leBytes 8 ctx.bitcount.toNat).reverse = bigEndian 8 (8 * total.length) := by
  rw [h.bitcount, UInt64.toNat_ofNat', bigEndian, ← leBytes_mod 8 (8 * total.length)]
  rfl

theorem Absorbed.finalState_eq {compress : Compress} {ctx : Sha256Ctx} {total : Bytes}
    (h : Absorbed compress ctx total) :
    finalState compress ctx =
      compressBlocks compress ((pad total).length / 64) sha256Init.state (pad total) := by
  have hbuf := h.length_buf
  have hlen := length_pad total
  have hwhole : compressBlocks compress (total.length / 64) sha256Init.state (pad total) =
      ctx.state := by
    rw [h.state, pad, List.append_assoc, List.append_assoc,
      compressBlocks_append _ _ (by omega)]
  by_cases hshort : total.length % 64 < 56
  · have hzeros : zeros total.length = 55 - total.length % 64 := by
      unfold zeros
      omega
    rw [show (pad total).length / 64 = total.length / 64 + 1 by omega, compressBlocks_add,
      hwhole, drop_pad, ← h.buf, compressBlocks, compressBlocks]
    have hall : (ctx.buf ++ padding total).length ≤ 64 := by
      simp [padding, bigEndian]
      omega
    rw [List.take_of_length_le hall]
    have hfit : ¬56 < (ctx.buf ++ [0x80]).length := by
      simp
      omega
    rw [finalState]
    simp only [hfit, if_false]
    rw [h.lengthBytes, padding, hzeros, List.length_append, List.length_singleton,
      show 56 - (ctx.buf.length + 1) = 55 - total.length % 64 by omega]
    simp only [List.append_assoc]
  · have hzeros : zeros total.length = (63 - total.length % 64) + 56 := by
      unfold zeros
      omega
    have hfit : 56 < (ctx.buf ++ [0x80]).length := by
      simp
      omega
    obtain ⟨first, hfirst⟩ : ∃ first : Bytes,
        first = ctx.buf ++ [0x80] ++ List.replicate (63 - total.length % 64) 0 := ⟨_, rfl⟩
    have hfirstlen : first.length = 64 := by
      simp [hfirst]
      omega
    have hsplit : ctx.buf ++ padding total =
        first ++ (List.replicate 56 0 ++ bigEndian 8 (8 * total.length)) := by
      rw [padding, hzeros, ← List.replicate_append_replicate, hfirst]
      simp only [List.append_assoc]
    rw [show (pad total).length / 64 = total.length / 64 + 2 by omega, compressBlocks_add,
      hwhole, drop_pad, ← h.buf, hsplit, compressBlocks, compressBlocks, compressBlocks,
      List.take_left' hfirstlen, List.drop_left' hfirstlen,
      List.take_of_length_le (by simp [bigEndian]), finalState]
    simp only [hfit, if_true, List.nil_append, List.length_nil, Nat.sub_zero]
    rw [h.lengthBytes, List.length_append, List.length_singleton, hfirst,
      show 64 - (ctx.buf.length + 1) = 63 - total.length % 64 by omega]

theorem byte_of_word (word : UInt32) :
    [(word >>> 24).toUInt8, (word >>> 16).toUInt8, (word >>> 8).toUInt8, word.toUInt8] =
      bigEndian 4 word.toNat := by
  simp only [bigEndian, leBytes, List.reverse_cons, List.reverse_nil, List.nil_append,
    List.cons_append, List.cons.injEq, and_true]
  refine ⟨?_, ?_, ?_, ?_⟩ <;> apply UInt8.toNat_inj.mp <;>
    simp [Nat.shiftRight_eq_div_pow, UInt8.toNat_ofNat'] <;> omega

theorem ofFn_words (f : Fin 32 → UInt8) (g : Fin 8 → Fin 4 → UInt8)
    (h : ∀ (i : Fin 8) (j : Fin 4), f ⟨i * 4 + j, by omega⟩ = g i j) :
    List.ofFn f = (List.ofFn fun i => List.ofFn (g i)).flatten := by
  have hmul := List.ofFn_mul (m := 8) (n := 4) f
  simpa only [h] using hmul

theorem ofFn_bytes (word : UInt32) :
    (List.ofFn fun j : Fin 4 => (word >>> (24 - 8 * UInt32.ofNat j)).toUInt8) =
      bigEndian 4 word.toNat := by
  rw [← byte_of_word]
  simp [List.ofFn_succ]

theorem ofFn_state (state : HashState) :
    (List.ofFn fun i : Fin 8 => state.toArray.getD i 0) = state.toList := by
  rw [← Vector.toList_ofFn]
  congr 1
  apply Vector.ext
  intro i hi
  simp only [Vector.getElem_ofFn, Array.getD_eq_getD_getElem?]
  simp [hi]

theorem toList_digestBytes (state : HashState) :
    (digestBytes state).toList = state.toList.flatMap fun word => bigEndian 4 word.toNat := by
  rw [digestBytes, Vector.toList_ofFn, ofFn_words _ fun i j =>
    (state.toArray.getD i 0 >>> (24 - 8 * UInt32.ofNat j)).toUInt8]
  · rw [← ofFn_state, List.flatMap_def, List.map_ofFn]
    congr 2
    funext i
    exact ofFn_bytes _
  · intro i j
    have hi : (i.val * 4 + j.val) / 4 = i.val := by omega
    have hj : (i.val * 4 + j.val) % 4 = j.val := by omega
    simp only [hi, hj]

theorem Absorbed.sha256Final_eq {ctx : Sha256Ctx} {total : Bytes}
    (h : Absorbed sha256CompressC ctx total) :
    (sha256Final sha256CompressC ctx).toList = SHA256 total := by
  rw [Cap.sha256Final_eq, h.finalState_eq, toList_digestBytes, SHA256, foldl_blocks,
    sha256Init_state]

theorem sha256_eq (message : Bytes) :
    (sha256 sha256CompressC message).toList = SHA256 message :=
  (absorbed_one message).sha256Final_eq

theorem sha256Final_block_append {block : Bytes} (hlen : block.length = 64) (rest : Bytes) :
    (sha256Final sha256CompressC (sha256Update sha256CompressC
      (sha256Update sha256CompressC sha256Init block) rest)).toList =
        SHA256 (block ++ rest) := by
  have hblock : Absorbed sha256CompressC (sha256Update sha256CompressC sha256Init block) block :=
    absorbed_one block
  refine Absorbed.sha256Final_eq (hblock.update_iff.mpr (.inl ?_))
  rw [hblock.length_buf, hlen]

/-- `hmac_sha256` with the C block function is HMAC over SHA-256, and `sha256` is SHA-256,
for every key and every message. -/
theorem hmacSha256_eq_HMAC (key message : Bytes) :
    (hmacSha256 sha256CompressC key message).toList = HMAC key message ∧
      (sha256 sha256CompressC message).toList = SHA256 message := by
  refine ⟨?_, sha256_eq message⟩
  obtain ⟨block, hblock⟩ : ∃ block : Bytes,
      block = if 64 < key.length then SHA256 key else key := ⟨_, rfl⟩
  have hkey : (if 64 < key.length then (sha256 sha256CompressC key).toList else key) = block := by
    rw [hblock, sha256_eq]
  have hle : block.length ≤ 64 := by
    rw [← hkey]
    split
    · simp
    · omega
  have hlen : (block ++ List.replicate (64 - block.length) 0).length = 64 := by
    simp
    omega
  rw [hmacSha256, HMAC]
  simp only [hkey, ← hblock]
  rw [sha256Final_block_append (by simpa using hlen),
    sha256Final_block_append (by simpa using hlen)]

end Uros.Cap
