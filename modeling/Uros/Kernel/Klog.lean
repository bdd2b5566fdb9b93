import Mathlib.Algebra.Ring.Nat
import Mathlib.Data.List.Basic
import Mathlib.Data.UInt
import Mathlib.Logic.Function.Basic
import Uros.Foundation.Transition

/-!
The ring of the kernel's log (`kern/klog.c`).

The two counters of the ring are 32-bit numbers, and a read decides by their difference to its
start value where it begins.  Everything that was ever appended is kept beside the ring, and so
is what one reader has received that passes the `next` of a read to the following one.
-/

namespace Uros.Kernel

open Uros.Foundation

def klogBufSize : ℕ := 65536

structure Klog where
  buf : ℕ → UInt8
  head : UInt32
  tail : UInt32
  ready : Bool

namespace Klog

def klogInit (s : Klog) : Klog := { s with ready := true }

def klogPutc (s : Klog) (c : UInt8) : Klog :=
  if s.ready then
    let head := s.head + 1
    { s with
      buf := Function.update s.buf (s.head.toNat % klogBufSize) c
      head := head
      tail :=
        if klogBufSize < (head - s.tail).toNat then head - UInt32.ofNat klogBufSize else s.tail }
  else s

def klogRead (s : Klog) (start cap : UInt32) : List UInt8 × UInt32 :=
  if s.ready then
    let start := if klogBufSize < (s.head - start).toNat then s.tail else start
    let avail := s.head - start
    let want := if avail < cap then avail else cap
    ((List.range want.toNat).map fun i => s.buf ((start + UInt32.ofNat i).toNat % klogBufSize),
      start + want)
  else ([], 0)

structure Holds (s : Klog) (log : List UInt8) : Prop where
  ready : s.ready = true
  head : s.head = UInt32.ofNat log.length
  tail : s.tail = UInt32.ofNat (log.length - klogBufSize)
  slots : ∀ i c, log.length - klogBufSize ≤ i → log[i]? = some c → s.buf (i % klogBufSize) = c

variable {s : Klog} {log : List UInt8} {start : UInt32}

theorem toNat_ofNat_mod (n : ℕ) : (UInt32.ofNat n).toNat % klogBufSize = n % klogBufSize := by
  rw [UInt32.toNat_ofNat']
  exact Nat.mod_mod_of_dvd n (by decide)

theorem ofNat_sub_ofNat {m n : ℕ} (h : m ≤ n) :
    UInt32.ofNat n - UInt32.ofNat m = UInt32.ofNat (n - m) := by
  rw [← UInt32.toNat_inj, UInt32.toNat_sub]
  simp only [UInt32.toNat_ofNat']
  omega

theorem Holds.putc (h : s.Holds log) (c : UInt8) : (s.klogPutc c).Holds (log ++ [c]) := by
  obtain ⟨hready, hhead, htail, hslots⟩ := h
  have hsucc : s.head + 1 = UInt32.ofNat (log.length + 1) := by
    rw [hhead, UInt32.ofNat_add]
    rfl
  -- before the ring is full the tail stays at 0, afterwards it follows the head
  have hdist : (s.head + 1 - s.tail).toNat = log.length + 1 - (log.length - klogBufSize) := by
    rw [hsucc, htail, ofNat_sub_ofNat (by omega), UInt32.toNat_ofNat']
    apply Nat.mod_eq_of_lt
    simp only [klogBufSize]
    omega
  unfold klogPutc
  rw [if_pos hready]
  refine ⟨hready, ?_, ?_, ?_⟩
  · rw [List.length_append]
    exact hsucc
  · simp only [hdist, List.length_append, List.length_singleton]
    split
    · rw [hsucc, ofNat_sub_ofNat (by omega)]
    · rw [htail]
      exact congrArg UInt32.ofNat (by omega)
  · intro i c' hi hc'
    dsimp only
    rw [hhead, toNat_ofNat_mod]
    rw [List.length_append, List.length_singleton] at hi
    by_cases hlt : i < log.length
    · rw [List.getElem?_append_left hlt] at hc'
      have hne : i % klogBufSize ≠ log.length % klogBufSize := by
        simp only [klogBufSize] at hi ⊢
        omega
      rw [Function.update_of_ne hne]
      exact hslots i c' (by omega) hc'
    · obtain ⟨hle, -⟩ := List.getElem?_eq_some_iff.mp hc'
      rw [List.length_append, List.length_singleton] at hle
      obtain rfl : i = log.length := by omega
      rw [List.getElem?_concat_length] at hc'
      rw [Function.update_self]
      exact Option.some.inj hc'

def behind (s : Klog) (start : UInt32) : ℕ :=
  if klogBufSize < (s.head - start).toNat then (s.head - s.tail).toNat else (s.head - start).toNat

theorem Holds.behind_le (h : s.Holds log) : s.behind start ≤ klogBufSize := by
  unfold behind
  split
  · rw [h.head, h.tail, ofNat_sub_ofNat (by omega), UInt32.toNat_ofNat']
    exact (Nat.mod_le _ _).trans (by omega)
  · omega

theorem Holds.read (h : s.Holds log) (cap : UInt32) (hle : s.behind start ≤ log.length) :
    s.klogRead start cap =
      ((log.drop (log.length - s.behind start)).take (min (s.behind start) cap.toNat),
        UInt32.ofNat (log.length - s.behind start + min (s.behind start) cap.toNat)) := by
  have hsize : s.behind start ≤ klogBufSize := h.behind_le
  obtain ⟨hready, hhead, htail, hslots⟩ := h
  -- the start that the read uses, and what is there from it on
  have hstart : (if klogBufSize < (s.head - start).toNat then s.tail else start) =
      UInt32.ofNat (log.length - s.behind start) := by
    rw [← ofNat_sub_ofNat hle, ← hhead]
    unfold behind
    split <;> rw [UInt32.ofNat_toNat] <;> simp
  have havail : s.head - UInt32.ofNat (log.length - s.behind start) =
      UInt32.ofNat (s.behind start) := by
    rw [hhead, ofNat_sub_ofNat (by omega)]
    exact congrArg UInt32.ofNat (by omega)
  have hbehind : (UInt32.ofNat (s.behind start)).toNat = s.behind start := by
    rw [UInt32.toNat_ofNat']
    apply Nat.mod_eq_of_lt
    simp only [klogBufSize] at hsize
    omega
  have hwant : (if UInt32.ofNat (s.behind start) < cap then UInt32.ofNat (s.behind start)
      else cap) = UInt32.ofNat (min (s.behind start) cap.toNat) := by
    rw [← UInt32.toNat_inj, UInt32.toNat_ofNat']
    have hcap := cap.toNat_lt
    simp only [UInt32.lt_iff_toNat_lt, hbehind]
    split
    · rw [hbehind, Nat.mod_eq_of_lt (by omega)]
      omega
    · rw [Nat.mod_eq_of_lt (by omega)]
      omega
  unfold klogRead
  rw [if_pos hready]
  dsimp only
  rw [hstart, havail, hwant, ← UInt32.ofNat_add]
  refine Prod.ext ?_ rfl
  have hlen : (UInt32.ofNat (min (s.behind start) cap.toNat)).toNat =
      min (s.behind start) cap.toNat := by
    rw [UInt32.toNat_ofNat']
    apply Nat.mod_eq_of_lt
    simp only [klogBufSize] at hsize
    omega
  rw [hlen]
  apply List.ext_getElem?
  intro i
  by_cases hi : i < min (s.behind start) cap.toNat
  · have hpos : log.length - s.behind start + i < log.length := by omega
    rw [List.getElem?_take_of_lt hi, List.getElem?_drop, List.getElem?_map,
      List.getElem?_range hi, List.getElem?_eq_getElem hpos, Option.map_some, ← UInt32.ofNat_add,
      toNat_ofNat_mod]
    exact congrArg some (hslots _ _ (by omega) (List.getElem?_eq_getElem hpos))
  · rw [List.getElem?_eq_none, List.getElem?_eq_none]
    · rw [List.length_take, List.length_drop]
      omega
    · rw [List.length_map, List.length_range]
      omega

end Klog

structure LogSystem where
  klog : Klog
  log : List UInt8
  next : UInt32
  got : List UInt8
  since : ℕ
  overrun : Bool

inductive LogStep where
  | putc (c : UInt8)
  | read (start cap : UInt32)
  | follow (cap : UInt32)

namespace LogSystem

def boot : LogSystem := ⟨Klog.klogInit ⟨fun _ => 0, 0, 0, false⟩, [], 0, [], 0, false⟩

def step (s : LogSystem) : LogStep → Option LogSystem
  | .putc c =>
    some { s with klog := s.klog.klogPutc c, log := s.log ++ [c], since := s.since + 1 }
  | .read _ _ => some s
  | .follow cap =>
    let r := s.klog.klogRead s.next cap
    some { s with
      next := r.2
      got := s.got ++ r.1
      since := s.klog.behind s.next - cap.toNat
      overrun := s.overrun || decide (klogBufSize < s.since) }

def Contiguous (s : LogSystem) (start cap : UInt32) : Prop :=
  ∃ front back, s.log = front ++ (s.klog.klogRead start cap).1 ++ back ∧
    (s.klog.klogRead start cap).1.length + back.length ≤ klogBufSize

/-- A read does not begin before the first byte of the log.  The reader may ask for less than there
is. -/
def Fair (s : LogSystem) : LogStep → Prop
  | .putc _ => True
  | .read start _ => s.klog.behind start ≤ s.log.length
  | .follow _ => True

structure Inv (s : LogSystem) : Prop where
  holds : s.klog.Holds s.log
  since : s.since ≤ s.log.length
  next : s.next = UInt32.ofNat (s.log.length - s.since)
  order : s.got.Sublist (s.log.take (s.log.length - s.since))
  complete : s.overrun = false → s.got = s.log.take (s.log.length - s.since)

variable {s s' : LogSystem} {l : LogStep}

theorem inv_boot : Inv boot := by
  refine ⟨⟨rfl, rfl, rfl, ?_⟩, Nat.le_refl 0, rfl, List.Sublist.refl _, fun _ => rfl⟩
  intro i c _ hc
  simp [boot] at hc

theorem Inv.behind_next (h : Inv s) :
    s.klog.behind s.next ≤ s.since ∧ (s.since ≤ klogBufSize → s.klog.behind s.next = s.since) := by
  have hdist : (s.klog.head - s.next).toNat = s.since % 2 ^ 32 := by
    rw [h.holds.head, h.next, Klog.ofNat_sub_ofNat (by omega), UInt32.toNat_ofNat',
      Nat.sub_sub_self h.since]
  have htail : (s.klog.head - s.klog.tail).toNat = min s.log.length klogBufSize := by
    rw [h.holds.head, h.holds.tail, Klog.ofNat_sub_ofNat (by omega), UInt32.toNat_ofNat']
    simp only [klogBufSize]
    omega
  have hsince := h.since
  unfold Klog.behind
  have hsize : klogBufSize = 65536 := rfl
  rw [hdist, htail]
  constructor
  · split <;> omega
  · intro hfits
    rw [Nat.mod_eq_of_lt (by omega), if_neg (by omega)]

theorem Inv.putc (h : Inv s) (c : UInt8) (hstep : step s (.putc c) = some s') : Inv s' := by
  simp only [step, Option.some.injEq] at hstep
  subst hstep
  have hpos : (s.log ++ [c]).length - (s.since + 1) = s.log.length - s.since := by simp
  have htake : (s.log ++ [c]).take (s.log.length - s.since) =
      s.log.take (s.log.length - s.since) := List.take_append_of_le_length (by omega)
  refine ⟨h.holds.putc c, ?_, ?_, ?_, ?_⟩
  · simpa using h.since
  · rw [hpos]
    exact h.next
  · rw [hpos, htake]
    exact h.order
  · rw [hpos, htake]
    exact h.complete

theorem Inv.follow (h : Inv s) {cap : UInt32} (hstep : step s (.follow cap) = some s') :
    Inv s' := by
  obtain ⟨hle, heq⟩ := h.behind_next
  have hsince := h.since
  have hread := h.holds.read cap (hle.trans hsince)
  have hend : s.log.length - s.klog.behind s.next + min (s.klog.behind s.next) cap.toNat =
      s.log.length - (s.klog.behind s.next - cap.toNat) := by omega
  rw [hend] at hread
  simp only [step, hread, Option.some.injEq] at hstep
  subst hstep
  -- the bytes before the place where the read begins, and those it gives
  have htake : s.log.take (s.log.length - (s.klog.behind s.next - cap.toNat)) =
      s.log.take (s.log.length - s.klog.behind s.next) ++
        (s.log.drop (s.log.length - s.klog.behind s.next)).take
          (min (s.klog.behind s.next) cap.toNat) := by
    rw [← hend, List.take_add]
  refine ⟨h.holds, by dsimp only; omega, rfl, ?_, ?_⟩
  · rw [htake]
    exact (h.order.trans (List.take_sublist_take_left (by omega))).append (List.Sublist.refl _)
  · intro hover
    obtain ⟨hbefore, hnow⟩ := Bool.or_eq_false_iff.mp hover
    have hfits : s.since ≤ klogBufSize := by simpa using hnow
    rw [htake, h.complete hbefore, heq hfits]

theorem Inv.step (h : Inv s) (hfair : Fair s l) (hstep : LogSystem.step s l = some s') :
    Inv s' := by
  cases l with
  | putc c => exact h.putc c hstep
  | read start cap =>
    cases hstep
    exact h
  | follow cap => exact h.follow hstep

theorem Inv.contiguous (h : Inv s) {start : UInt32} (cap : UInt32)
    (hle : s.klog.behind start ≤ s.log.length) : Contiguous s start cap := by
  have hsize : s.klog.behind start ≤ klogBufSize := h.holds.behind_le
  unfold Contiguous
  rw [h.holds.read cap hle]
  refine ⟨s.log.take (s.log.length - s.klog.behind start),
    (s.log.drop (s.log.length - s.klog.behind start)).drop (min (s.klog.behind start) cap.toNat),
    ?_, ?_⟩
  · rw [List.append_assoc, List.take_append_drop, List.take_append_drop]
  · rw [← List.length_append, List.take_append_drop, List.length_drop]
    omega

/-- In every run of fair steps a read gives a piece of the last bytes, and the reader receives
the log in order, all of it unless too much was appended between two of its reads. -/
theorem klog_reads_contiguous (labels : List LogStep) (s : LogSystem)
    (hfair : StepsMeet step Fair boot labels) (hrun : runSteps step boot labels = some s) :
    (∀ start cap, Fair s (.read start cap) → Contiguous s start cap) ∧
      (∀ cap, Contiguous s s.next cap) ∧
      s.got.Sublist s.log ∧
      (s.overrun = false → s.got = s.log.take (s.log.length - s.since)) := by
  have h : Inv s := runSteps_invariant_of_guard (fun _ _ _ hi hg hs => hi.step hg hs) inv_boot
    hfair hrun
  refine ⟨fun start cap hle => h.contiguous cap hle, fun cap => ?_, ?_, h.complete⟩
  · exact h.contiguous cap (h.behind_next.1.trans h.since)
  · exact h.order.trans (List.take_sublist _ _)

/-- Three bytes, of which the reader takes two and then the last. -/
theorem klog_reads_contiguous_parts :
    ∃ s, runSteps step boot [.putc 104, .putc 105, .putc 33, .follow 2, .follow 16] = some s ∧
      s.got = [104, 105, 33] ∧ s.got.Sublist s.log :=
  ⟨_, rfl, by decide,
    (klog_reads_contiguous [.putc 104, .putc 105, .putc 33, .follow 2, .follow 16] _
      ⟨trivial, fun _ _ => ⟨trivial, fun _ _ => ⟨trivial, fun _ _ => ⟨trivial, fun _ _ =>
        ⟨trivial, fun _ _ => trivial⟩⟩⟩⟩⟩ rfl).2.2.1⟩

/-- After one byte, a read that starts one position before the first byte gives two. -/
theorem read_before_first_byte :
    ∃ s, runSteps step boot [.putc 104] = some s ∧
      (s.klog.klogRead 0xffffffff 16).1 = [0, 104] ∧ ¬Contiguous s 0xffffffff 16 := by
  refine ⟨_, rfl, by decide, ?_⟩
  rintro ⟨front, back, heq, -⟩
  have hlen := congrArg List.length heq
  simp only [List.length_append] at hlen
  have htwo : ((boot.klog.klogPutc 104).klogRead 0xffffffff 16).1.length = 2 := by decide
  have hone : ([] ++ [(104 : UInt8)]).length = 1 := rfl
  change ([] ++ [(104 : UInt8)]).length =
    front.length + ((boot.klog.klogPutc 104).klogRead 0xffffffff 16).1.length + back.length at hlen
  omega

end LogSystem

end Uros.Kernel
