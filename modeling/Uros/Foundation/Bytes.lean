import Mathlib.Algebra.Ring.Nat
import Mathlib.Data.List.TakeWhile

/-!
Little-endian layout of fixed-width fields in a byte sequence.

A record is laid out by appending the bytes of its fields and read back by
taking the fields off the front one after the other, so a round trip is the
`take_append` lemma of each field.  Then come NUL-terminated strings and bit masks.
-/

namespace Uros.Foundation

abbrev Bytes := List UInt8

def leBytes : Nat → Nat → Bytes
  | 0, _ => []
  | width + 1, n => UInt8.ofNat n :: leBytes width (n / 256)

def leNat : Bytes → Nat
  | [] => 0
  | b :: bytes => b.toNat + 256 * leNat bytes

@[simp] theorem length_leBytes (width n : Nat) : (leBytes width n).length = width := by
  induction width generalizing n with
  | zero => rfl
  | succ width ih => simp [leBytes, ih]

theorem leNat_lt (bytes : Bytes) : leNat bytes < 256 ^ bytes.length := by
  induction bytes with
  | nil => exact Nat.one_pos
  | cons b bytes ih =>
    have hb := b.toNat_lt
    rw [leNat, List.length_cons, Nat.pow_succ]
    omega

theorem leNat_leBytes {width n : Nat} (h : n < 256 ^ width) :
    leNat (leBytes width n) = n := by
  induction width generalizing n with
  | zero =>
    simp only [Nat.pow_zero, Nat.lt_one_iff] at h
    simp [leBytes, leNat, h]
  | succ width ih =>
    have hdiv : n / 256 < 256 ^ width := by
      rw [Nat.pow_succ] at h
      omega
    simp only [leBytes, leNat, ih hdiv, UInt8.toNat_ofNat']
    omega

def u64Bytes (x : UInt64) : Bytes := leBytes 8 x.toNat

def u32Bytes (x : UInt32) : Bytes := leBytes 4 x.toNat

def takeU64 (bytes : Bytes) : UInt64 × Bytes :=
  (UInt64.ofNat (leNat (bytes.take 8)), bytes.drop 8)

def takeU32 (bytes : Bytes) : UInt32 × Bytes :=
  (UInt32.ofNat (leNat (bytes.take 4)), bytes.drop 4)

def takeU8 (bytes : Bytes) : UInt8 × Bytes :=
  (bytes.headD 0, bytes.drop 1)

def takeArray (n : Nat) (bytes : Bytes) : Vector UInt8 n × Bytes :=
  (Vector.ofFn fun i => bytes.getD i 0, bytes.drop n)

@[simp] theorem length_u64Bytes (x : UInt64) : (u64Bytes x).length = 8 :=
  length_leBytes 8 _

@[simp] theorem length_u32Bytes (x : UInt32) : (u32Bytes x).length = 4 :=
  length_leBytes 4 _

@[simp] theorem takeU64_append (x : UInt64) (rest : Bytes) :
    takeU64 (u64Bytes x ++ rest) = (x, rest) := by
  have hx : leNat (u64Bytes x) = x.toNat := leNat_leBytes x.toNat_lt
  have htake : (u64Bytes x ++ rest).take 8 = u64Bytes x := List.take_left' (by simp)
  have hdrop : (u64Bytes x ++ rest).drop 8 = rest := List.drop_left' (by simp)
  simp [takeU64, htake, hdrop, hx]

@[simp] theorem takeU32_append (x : UInt32) (rest : Bytes) :
    takeU32 (u32Bytes x ++ rest) = (x, rest) := by
  have hx : leNat (u32Bytes x) = x.toNat := leNat_leBytes x.toNat_lt
  have htake : (u32Bytes x ++ rest).take 4 = u32Bytes x := List.take_left' (by simp)
  have hdrop : (u32Bytes x ++ rest).drop 4 = rest := List.drop_left' (by simp)
  simp [takeU32, htake, hdrop, hx]

@[simp] theorem takeU8_cons (x : UInt8) (rest : Bytes) :
    takeU8 (x :: rest) = (x, rest) := rfl

@[simp] theorem takeArray_append {n : Nat} (v : Vector UInt8 n) (rest : Bytes) :
    takeArray n (v.toList ++ rest) = (v, rest) := by
  have hdrop : (v.toList ++ rest).drop n = rest := List.drop_left' (by simp)
  have hget : (Vector.ofFn fun i : Fin n => (v.toList ++ rest).getD i 0) = v := by
    ext i hi
    have hlen : i < v.toList.length := by simpa using hi
    simp [List.getElem?_append_left hlen, hi]
  simp only [takeArray, hdrop, hget]

abbrev CString := { s : Bytes // (0 : UInt8) ∉ s }

def strlen (src : Bytes) : Nat := (src.takeWhile (· ≠ 0)).length

theorem CString.ne_zero (s : CString) : ∀ b ∈ s.1, decide (b ≠ 0) = true := by
  intro b hb
  simpa using fun h : b = 0 => s.2 (h ▸ hb)

theorem strlen_terminated (s : CString) (rest : Bytes) :
    strlen (s.1 ++ 0 :: rest) = s.1.length := by
  rw [strlen, List.takeWhile_append_of_pos s.ne_zero]
  simp

theorem strlen_cstring (s : CString) : strlen s.1 = s.1.length := by
  rw [strlen, List.takeWhile_eq_self_iff.mpr s.ne_zero]

theorem and_not_eq_zero_iff {x y : UInt64} :
    x &&& ~~~y = 0 ↔ ∀ i < 64, x.toBitVec.getLsbD i = true → y.toBitVec.getLsbD i = true := by
  rw [← UInt64.toBitVec_inj]
  constructor
  · intro h i hi hx
    have hbit := congrArg (fun v => v.getLsbD i) h
    simpa [hi, hx] using hbit
  · intro h
    apply BitVec.eq_of_getLsbD_eq
    intro i hi
    have := h i hi
    cases hx : x.toBitVec.getLsbD i <;> simp_all

theorem and_not_trans {x y z : UInt64} (hxy : x &&& ~~~y = 0) (hyz : y &&& ~~~z = 0) :
    x &&& ~~~z = 0 := by
  rw [and_not_eq_zero_iff] at hxy hyz ⊢
  exact fun i hi hx => hyz i hi (hxy i hi hx)

theorem and_not_self (x : UInt64) : x &&& ~~~x = 0 :=
  and_not_eq_zero_iff.mpr fun _ _ hx => hx

end Uros.Foundation
