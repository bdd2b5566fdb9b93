import Mathlib.Algebra.Ring.Nat
import Mathlib.Data.UInt
import Uros.Foundation.Transition

/-!
Deadlines of the timed calls of libpthreads: `pthread_cond_timedwait`,
`pthread_mutex_timedlock`, `pthread_rwlock_timedrdlock`, `pthread_rwlock_timedwrlock` and
`pthread_timedjoin_np`.

Each reads the clock, turns what is left of the time into milliseconds and sleeps on a futex
for that long.  The clock only goes forward, and a futex wait times out no earlier than it was
asked to; what the calls wait for is left open.
-/

namespace Uros.Pthread.Deadline

open Uros.Foundation

structure Timespec where
  sec : UInt32
  nsec : ℕ
  valid : nsec < 1000000000

def Timespec.ns (t : Timespec) : ℕ := t.sec.toNat * 1000000000 + t.nsec

def getclock (clock : ℕ) : Timespec :=
  ⟨UInt32.ofNat (clock / 1000000000), clock % 1000000000, Nat.mod_lt _ (by decide)⟩

def relative (abstime now : Timespec) : UInt32 × ℕ :=
  if abstime.nsec < now.nsec then
    (abstime.sec - now.sec - 1, abstime.nsec + 1000000000 - now.nsec)
  else (abstime.sec - now.sec, abstime.nsec - now.nsec)

def passed (rel : UInt32 × ℕ) : Bool := 2 ^ 31 ≤ rel.1.toNat || (rel.1 = 0 && rel.2 = 0)

def joinPassed (rel : UInt32 × ℕ) : Bool :=
  let rel := if 2 ^ 31 ≤ rel.1.toNat then (0, 0) else rel
  rel.1 = 0 && rel.2 = 0

def toMs (rel : UInt32 × ℕ) : UInt32 :=
  let ms := rel.1 * 1000 + UInt32.ofNat (rel.2 / 1000000)
  if ms = 0 then 1 else ms

/-- In what the calls differ: their test of the deadline, whether they wait again after a wake,
and whether they look at what they waited for after a time-out. -/
structure TimedCall where
  passed : UInt32 × ℕ → Bool
  retries : Bool
  harvests : Bool

def pthreadCondTimedwait : TimedCall := ⟨passed, false, false⟩
def pthreadMutexTimedlock : TimedCall := ⟨passed, true, false⟩
def pthreadRwlockTimedrdlock : TimedCall := ⟨passed, true, false⟩
def pthreadRwlockTimedwrlock : TimedCall := ⟨passed, true, false⟩
def pthreadTimedjoinNp : TimedCall := ⟨joinPassed, false, true⟩

inductive Pc where
  | reads
  | enters (ms : UInt32)
  | sleeps (start : ℕ) (ms : UInt32)
  | expired
  | returned (timedOut : Bool)
  deriving DecidableEq

structure State where
  clock : ℕ
  pc : Pc
  deriving DecidableEq

inductive Act where
  | tick (ns : ℕ)
  | look
  | sleep
  | wake (free : Bool)
  | timeout
  | finish (free : Bool)

def step (call : TimedCall) (abstime : Timespec) (s : State) : Act → Option State
  | .tick ns => if s.clock + ns < 2 ^ 32 * 1000000000 then some { s with clock := s.clock + ns }
    else none
  | .look =>
    match s.pc with
    | .reads =>
      let rel := relative abstime (getclock s.clock)
      some { s with pc := if call.passed rel then .expired else .enters (toMs rel) }
    | _ => none
  | .sleep =>
    match s.pc with
    | .enters ms => some { s with pc := .sleeps s.clock ms }
    | _ => none
  | .wake free =>
    match s.pc with
    | .sleeps _ _ =>
      some { s with pc := if call.retries && !free then .reads else .returned false }
    | _ => none
  | .timeout =>
    match s.pc with
    | .sleeps start ms =>
      if start + ms.toNat * 1000000 ≤ s.clock then some { s with pc := .expired } else none
    | _ => none
  | .finish free =>
    match s.pc with
    | .expired => some { s with pc := .returned (!(call.harvests && free)) }
    | _ => none

variable {abstime now : Timespec} {call : TimedCall} {s s' : State}

theorem joinPassed_eq (rel : UInt32 × ℕ) : joinPassed rel = passed rel := by
  unfold joinPassed passed
  dsimp only
  split
  · next h => rw [decide_eq_true h, Bool.true_or, decide_eq_true rfl, decide_eq_true rfl,
      Bool.and_self]
  · next h => rw [decide_eq_false h, Bool.false_or]

/-- The time left is below a millisecond, or a whole number of milliseconds that fits in 32
bits. -/
def WholeMs (abstime now : Timespec) : Prop :=
  abstime.ns < now.ns + 1000000 ∨
    (abstime.ns - now.ns) % 1000000 = 0 ∧ (abstime.ns - now.ns) / 1000000 < 2 ^ 32

theorem relative_eq (h : now.ns ≤ abstime.ns) :
    (relative abstime now).1.toNat = (abstime.ns - now.ns) / 1000000000 ∧
      (relative abstime now).2 = (abstime.ns - now.ns) % 1000000000 := by
  have hsec := abstime.sec.toNat_lt
  have hsec' := now.sec.toNat_lt
  have hnsec := abstime.valid
  have hnsec' := now.valid
  unfold Timespec.ns at h ⊢
  unfold relative
  split
  · simp only [UInt32.toNat_sub, UInt32.toNat_one]
    omega
  · simp only [UInt32.toNat_sub]
    omega

theorem toMs_eq (h : now.ns ≤ abstime.ns) :
    (toMs (relative abstime now)).toNat =
      if (abstime.ns - now.ns) / 1000000 % 2 ^ 32 = 0 then 1
      else (abstime.ns - now.ns) / 1000000 % 2 ^ 32 := by
  obtain ⟨hsec, hnsec⟩ := relative_eq h
  have hsum : ((relative abstime now).1 * 1000 +
      UInt32.ofNat ((relative abstime now).2 / 1000000)).toNat =
        (abstime.ns - now.ns) / 1000000 % 2 ^ 32 := by
    rw [UInt32.toNat_add, UInt32.toNat_mul, UInt32.toNat_ofNat', hsec, hnsec]
    have hk : (1000 : UInt32).toNat = 1000 := rfl
    rw [hk]
    omega
  unfold toMs
  dsimp only
  by_cases hzero : (abstime.ns - now.ns) / 1000000 % 2 ^ 32 = 0
  · rw [if_pos hzero, if_pos (UInt32.toNat_inj.mp (by rw [hsum, hzero]; rfl))]
    rfl
  · rw [if_neg hzero, if_neg, hsum]
    intro heq
    rw [heq] at hsum
    exact hzero hsum.symm

def waited (abstime now : Timespec) : ℕ :=
  if passed (relative abstime now) then 0 else (toMs (relative abstime now)).toNat * 1000000

theorem covered_iff : abstime.ns ≤ now.ns + waited abstime now ↔ WholeMs abstime now := by
  unfold WholeMs waited
  by_cases h : abstime.ns ≤ now.ns
  · refine ⟨fun _ => .inl (by omega), fun _ => by omega⟩
  · obtain ⟨hsec, hnsec⟩ := relative_eq (Nat.le_of_not_le h)
    have hpassed : passed (relative abstime now) = true ↔
        2 ^ 31 ≤ (abstime.ns - now.ns) / 1000000000 := by
      have hzero : (relative abstime now).1 = 0 ↔ (abstime.ns - now.ns) / 1000000000 = 0 := by
        rw [← hsec, ← UInt32.toNat_inj]
        rfl
      simp only [passed, Bool.or_eq_true, Bool.and_eq_true, decide_eq_true_eq, hsec, hnsec, hzero]
      omega
    rw [toMs_eq (Nat.le_of_not_le h)]
    split
    · next hp =>
      have := hpassed.mp hp
      constructor <;> intro h' <;> omega
    · next hp =>
      have := fun h' => hp (hpassed.mpr h')
      split <;> constructor <;> intro h' <;> omega

theorem ns_getclock {clock : ℕ} (h : clock < 2 ^ 32 * 1000000000) :
    (getclock clock).ns = clock := by
  unfold Timespec.ns getclock
  simp only [UInt32.toNat_ofNat']
  omega

def Pc.Fits (abstime : Timespec) (clock : ℕ) : Pc → Prop
  | .reads => True
  | .enters ms => abstime.ns ≤ clock + ms.toNat * 1000000
  | .sleeps start ms => abstime.ns ≤ start + ms.toNat * 1000000
  | .expired => abstime.ns ≤ clock
  | .returned timedOut => timedOut = true → abstime.ns ≤ clock

structure Inv (abstime : Timespec) (s : State) : Prop where
  clock : s.clock < 2 ^ 32 * 1000000000
  fits : s.pc.Fits abstime s.clock

/-- Every reading of the clock leaves whole milliseconds. -/
def Whole (abstime : Timespec) (s : State) : Act → Prop
  | .look => WholeMs abstime (getclock s.clock)
  | _ => True

theorem Pc.Fits.later {pc : Pc} {clock clock' : ℕ} (h : pc.Fits abstime clock)
    (hle : clock ≤ clock') : pc.Fits abstime clock' := by
  cases pc with
  | reads => trivial
  | enters ms => exact Nat.le_trans h (by omega)
  | sleeps start ms => exact h
  | expired => exact Nat.le_trans h hle
  | returned timedOut => exact fun ht => (h ht).trans hle

theorem Inv.step (h : Inv abstime s) (hcall : ∀ rel, call.passed rel = passed rel) {a : Act}
    (hwhole : Whole abstime s a) (hstep : step call abstime s a = some s') : Inv abstime s' := by
  obtain ⟨hclock, hfits⟩ := h
  obtain ⟨clock, pc⟩ := s
  cases a with
  | tick ns =>
    simp only [Deadline.step, Option.ite_none_right_eq_some, Option.some.injEq] at hstep
    obtain ⟨hlt, rfl⟩ := hstep
    exact ⟨hlt, hfits.later (Nat.le_add_right _ _)⟩
  | look =>
    cases pc <;> simp only [Deadline.step, Option.some.injEq, reduceCtorEq] at hstep
    subst hstep
    refine ⟨hclock, ?_⟩
    have hcover := covered_iff.mpr hwhole
    rw [ns_getclock hclock] at hcover
    unfold waited at hcover
    dsimp only
    rw [hcall]
    split at hcover
    · next hp =>
      rw [if_pos hp]
      exact hcover
    · next hp =>
      rw [if_neg hp]
      exact hcover
  | sleep =>
    cases pc <;> simp only [Deadline.step, Option.some.injEq, reduceCtorEq] at hstep
    subst hstep
    exact ⟨hclock, hfits⟩
  | wake free =>
    cases pc <;> simp only [Deadline.step, Option.some.injEq, reduceCtorEq] at hstep
    subst hstep
    refine ⟨hclock, ?_⟩
    dsimp only
    split
    · trivial
    · exact fun ht => absurd ht (by decide)
  | timeout =>
    cases pc <;> simp only [Deadline.step, Option.ite_none_right_eq_some, Option.some.injEq,
      reduceCtorEq] at hstep
    obtain ⟨hlate, rfl⟩ := hstep
    exact ⟨hclock, Nat.le_trans hfits hlate⟩
  | finish free =>
    cases pc <;> simp only [Deadline.step, Option.some.injEq, reduceCtorEq] at hstep
    subst hstep
    exact ⟨hclock, fun _ => hfits⟩

def start (clock : ℕ) : State := ⟨clock, .reads⟩

theorem run_timeout {clock : ℕ} {ms : UInt32}
    (hlook : step call abstime (start clock) .look = some ⟨clock, .enters ms⟩)
    (hlt : clock + ms.toNat * 1000000 < 2 ^ 32 * 1000000000) :
    runSteps (step call abstime) (start clock) [.look, .sleep, .tick (ms.toNat * 1000000),
      .timeout, .finish false] = some ⟨clock + ms.toNat * 1000000, .returned true⟩ := by
  have htick : step call abstime ⟨clock, .sleeps clock ms⟩ (.tick (ms.toNat * 1000000)) =
      some ⟨clock + ms.toNat * 1000000, .sleeps clock ms⟩ := if_pos hlt
  have htimeout : step call abstime ⟨clock + ms.toNat * 1000000, .sleeps clock ms⟩ .timeout =
      some ⟨clock + ms.toNat * 1000000, .expired⟩ := if_pos (Nat.le_refl _)
  refine runSteps_cons.mpr ⟨_, hlook, runSteps_cons.mpr ⟨_, rfl, runSteps_cons.mpr ⟨_, htick,
    runSteps_cons.mpr ⟨_, htimeout, ?_⟩⟩⟩⟩
  simp [runSteps, step]

/-- No timed call returns `ETIMEDOUT` before its deadline if every reading of the clock leaves
whole milliseconds, and from every reading that does not, it may. -/
theorem timed_calls_not_early (call : TimedCall)
    (hcall : call ∈ [pthreadCondTimedwait, pthreadMutexTimedlock, pthreadRwlockTimedrdlock,
      pthreadRwlockTimedwrlock, pthreadTimedjoinNp])
    (abstime : Timespec) (clock : ℕ) (hclock : clock < 2 ^ 32 * 1000000000) :
    (∀ acts s, StepsMeet (step call abstime) (Whole abstime) (start clock) acts →
      runSteps (step call abstime) (start clock) acts = some s → s.pc = .returned true →
        abstime.ns ≤ s.clock) ∧
    (¬WholeMs abstime (getclock clock) →
      ∃ acts s, runSteps (step call abstime) (start clock) acts = some s ∧
        s.pc = .returned true ∧ s.clock < abstime.ns) := by
  have hpassed : ∀ rel, call.passed rel = passed rel := by
    intro rel
    simp only [List.mem_cons, List.not_mem_nil, or_false] at hcall
    obtain rfl | rfl | rfl | rfl | rfl := hcall
    all_goals first
      | rfl
      | exact joinPassed_eq rel
  constructor
  · intro acts s hwhole hrun hpc
    have h : Inv abstime s := runSteps_invariant_of_guard
      (fun _ _ _ hi hg hs => hi.step hpassed hg hs)
        (show Inv abstime (start clock) from ⟨hclock, trivial⟩) hwhole hrun
    have hfits := h.fits
    rw [hpc] at hfits
    exact hfits rfl
  · intro hpart
    have hearly := mt covered_iff.mp hpart
    rw [ns_getclock hclock] at hearly
    have hns : abstime.ns < 2 ^ 32 * 1000000000 := by
      have := abstime.sec.toNat_lt
      have := abstime.valid
      unfold Timespec.ns
      omega
    unfold waited at hearly
    split at hearly
    · next hp =>
      refine ⟨[.look, .finish false], ⟨clock, .returned true⟩, ?_, rfl, by simpa using hearly⟩
      simp [runSteps, step, start, hpassed, hp]
    · next hp =>
      have hlook : step call abstime (start clock) .look =
          some ⟨clock, .enters (toMs (relative abstime (getclock clock)))⟩ := by
        simp only [step, start, hpassed, hp, if_false, Bool.false_eq_true]
      exact ⟨_, _, run_timeout hlook (by omega), rfl, Nat.lt_of_not_le hearly⟩

/-- A deadline three milliseconds ahead, and a wait that times out. -/
theorem timed_calls_not_early_whole :
    ∃ s, runSteps (step pthreadMutexTimedlock ⟨1, 3000000, by decide⟩) (start 1000000000)
        [.look, .sleep, .tick 3000000, .timeout, .finish false] = some s ∧
      s.pc = .returned true ∧ s.clock = 1003000000 ∧
      Timespec.ns ⟨1, 3000000, by decide⟩ ≤ s.clock := by
  refine ⟨⟨1003000000, .returned true⟩, by decide +kernel, rfl, rfl, ?_⟩
  refine (timed_calls_not_early pthreadMutexTimedlock (by simp) ⟨1, 3000000, by decide⟩ 1000000000
    (by omega)).1 [.look, .sleep, .tick 3000000, .timeout, .finish false] _ ?_
    (by decide +kernel) rfl
  refine ⟨.inr ⟨by decide +kernel, by decide +kernel⟩, fun _ _ => ?_⟩
  exact ⟨trivial, fun _ _ =>
    ⟨trivial, fun _ _ => ⟨trivial, fun _ _ => ⟨trivial, fun _ _ => trivial⟩⟩⟩⟩

/-- A deadline 1.9 milliseconds ahead: the wait is one of 1 millisecond. -/
theorem part_of_ms_cut_off :
    ∃ s, runSteps (step pthreadMutexTimedlock ⟨1, 1900000, by decide⟩) (start 1000000000)
        [.look, .sleep, .tick 1000000, .timeout, .finish false] = some s ∧
      s.pc = .returned true ∧ s.clock = 1001000000 ∧
      s.clock < Timespec.ns ⟨1, 1900000, by decide⟩ :=
  ⟨⟨1001000000, .returned true⟩, by decide +kernel, rfl, rfl, by decide +kernel⟩

end Uros.Pthread.Deadline
