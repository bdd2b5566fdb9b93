import Mathlib.Algebra.Ring.Nat
import Mathlib.Data.List.Nodup
import Mathlib.Logic.Function.Basic
import Uros.Foundation.SignedInt
import Uros.Foundation.Transition

/-!
Read-write locks of libpthreads.

The parts of the calls under the spin lock of the lock are single steps.  A futex wait
compares the sequence word, of 32 bits, with the snapshot and parks in one step; the kernel
wakes the waiters of a word in arrival order.  Only threads that hold the lock unlock it.
-/

namespace Uros.Pthread.Rwlock

open Uros.Foundation

variable {θ : Type} {t u : θ}

/-- Where a thread is: outside, on its way into the futex wait with its snapshot, parked, or
back from the wait, for a reader and for a writer; a writer that timed out; a thread that
has unlocked and is going to wake. -/
inductive Pc where
  | outside
  | rwait (seq : ℕ) (timed : Bool)
  | rparked (timed : Bool)
  | rwoken (timed : Bool)
  | wwait (seq : ℕ) (timed : Bool)
  | wparked (timed : Bool)
  | wwoken (timed : Bool)
  | givesUp
  | wakesReaders
  | wakesWriter
  deriving DecidableEq

def Pc.blocked : Pc → Bool
  | .wwait .. | .wparked _ | .wwoken _ | .givesUp => true
  | _ => false

/-- A lock and its threads, with the writers that the kernel has parked.  The other lists
are history: who holds the lock for reading, once for every call, who holds it for writing,
and who is counted as a blocked writer. -/
structure State (θ : Type) where
  readers : ℤ
  writer : Bool
  blocked : ℤ
  rseq : ℕ
  wseq : ℕ
  pc : θ → Pc
  sleeping : List θ
  reading : List θ
  writing : List θ
  queue : List θ

def init : State θ := ⟨0, false, 0, 0, 0, fun _ => .outside, [], [], [], []⟩

inductive Act where
  | rdlock (timed : Bool)
  | tryrdlock
  | wrlock (timed : Bool)
  | trywrlock
  | unlock
  | wait
  | recheck
  | timeout
  | giveUp
  | spurious
  | wake

section Steps

variable [DecidableEq θ]

def State.goto (s : State θ) (t : θ) (pc : Pc) : State θ :=
  { s with pc := Function.update s.pc t pc }

def readSection (s : State θ) (t : θ) (timed : Bool) : State θ :=
  if s.writer = true ∨ 0 < s.blocked then s.goto t (.rwait s.rseq timed)
  else { s with readers := toInt32 (s.readers + 1), reading := t :: s.reading }.goto t .outside

def writeSection (s : State θ) (t : θ) (timed : Bool) : State θ :=
  if s.writer = true ∨ 0 < s.readers then s.goto t (.wwait s.wseq timed)
  else
    { s with
      blocked := toInt32 (s.blocked - 1), writer := true, queue := s.queue.erase t
      writing := t :: s.writing }.goto t .outside

def unlock (s : State θ) (t : θ) : State θ :=
  if s.writer = true then
    let s := { s with writer := false, writing := s.writing.erase t }
    if 0 < s.blocked then { s with wseq := s.wseq + 1 }.goto t .wakesWriter
    else { s with rseq := s.rseq + 1 }.goto t .wakesReaders
  else if 0 < s.readers then
    let s := { s with readers := toInt32 (s.readers - 1), reading := s.reading.erase t }
    if s.readers = 0 ∧ 0 < s.blocked then { s with wseq := s.wseq + 1 }.goto t .wakesWriter
    else s
  else s

def Pc.readerWoken : Pc → Pc
  | .rparked timed => .rwoken timed
  | pc => pc

def wakeWriter (s : State θ) : State θ :=
  match s.sleeping with
  | [] => s
  | u :: rest => { s with sleeping := rest }.goto u (.wwoken (s.pc u = Pc.wparked true))

def leaveWait (s : State θ) (t : θ) (pc : Pc) : State θ :=
  { s with sleeping := s.sleeping.erase t }.goto t pc

def step (s : State θ) (l : θ × Act) : Option (State θ) :=
  match l.2, s.pc l.1 with
  | .rdlock timed, .outside => some (readSection s l.1 timed)
  | .tryrdlock, .outside =>
    some (if s.writer = true ∨ 0 < s.blocked then s else readSection s l.1 false)
  | .wrlock timed, .outside =>
    some (writeSection
      { s with blocked := toInt32 (s.blocked + 1), queue := l.1 :: s.queue } l.1 timed)
  | .trywrlock, .outside =>
    some (if s.writer = true ∨ 0 < s.readers then s
      else { s with writer := true, writing := l.1 :: s.writing })
  | .unlock, .outside =>
    if l.1 ∈ s.writing ∨ l.1 ∈ s.reading then some (unlock s l.1) else none
  | .wait, .rwait v timed =>
    some (s.goto l.1 (if s.rseq % 2 ^ 32 = v % 2 ^ 32 then .rparked timed else .rwoken timed))
  | .wait, .wwait v timed =>
    some (if s.wseq % 2 ^ 32 = v % 2 ^ 32 then
        { s with sleeping := s.sleeping ++ [l.1] }.goto l.1 (.wparked timed)
      else s.goto l.1 (.wwoken timed))
  | .recheck, .rwoken timed => some (readSection s l.1 timed)
  | .recheck, .wwoken timed => some (writeSection s l.1 timed)
  | .timeout, .rwait _ true | .timeout, .rparked true => some (s.goto l.1 .outside)
  | .timeout, .wwait _ true | .timeout, .wparked true => some (leaveWait s l.1 .givesUp)
  | .giveUp, .givesUp =>
    some ({ s with
      blocked := toInt32 (s.blocked - 1), queue := s.queue.erase l.1 }.goto l.1 .outside)
  | .spurious, .rparked timed => some (s.goto l.1 (.rwoken timed))
  | .spurious, .wparked timed => some (leaveWait s l.1 (.wwoken timed))
  | .wake, .wakesReaders =>
    some ({ s with pc := fun u => (s.pc u).readerWoken }.goto l.1 .outside)
  | .wake, .wakesWriter => some ((wakeWriter s).goto l.1 .outside)
  | _, _ => none

/-- The counts of readers and of blocked writers do not overflow, no writer times out, and a
waiter meets fewer than `2 ^ 32` wakes on its way into the futex wait. -/
def guarded (s : State θ) (l : θ × Act) : Bool :=
  s.readers < 2 ^ 31 - 1 && s.blocked < 2 ^ 31 - 1 &&
    match l.2, s.pc l.1 with
    | .timeout, pc => !pc.blocked
    | .wait, .rwait v _ => s.rseq < v + 2 ^ 32
    | .wait, .wwait v _ => s.wseq < v + 2 ^ 32
    | _, _ => true

end Steps

theorem few_of_guarded {s : State θ} {l : θ × Act} (h : guarded s l = true) :
    s.readers < 2 ^ 31 - 1 ∧ s.blocked < 2 ^ 31 - 1 := by
  simp only [guarded, Bool.and_eq_true, decide_eq_true_eq] at h
  exact h.1

def Excludes (s : State θ) : Prop :=
  s.writing = [] ∨ ∃ t, s.writing = [t] ∧ s.reading = []

/-- If nobody runs in the lock code and nobody holds the lock, nobody is parked. -/
def StrandsNobody (s : State θ) : Prop :=
  (∀ t, s.pc t = .outside ∨ (∃ b, s.pc t = .rparked b) ∨ ∃ b, s.pc t = .wparked b) →
    s.writing = [] → s.reading = [] → ∀ t, s.pc t = .outside

def State.Held (s : State θ) : Prop := s.writer = true ∨ 0 < s.readers

def State.Wanted (s : State θ) : Prop := s.writer = true ∨ 0 < s.blocked

def Pc.ForWriter (wseq : ℕ) : Pc → Prop
  | .wakesWriter | .wwoken _ => True
  | .wwait v _ => v < wseq
  | _ => False

def Pc.asleep : Pc → Bool
  | .wparked _ => true
  | _ => false

structure Counts (s : State θ) : Prop where
  writing : s.writing.length = s.writer.toNat
  reading : (s.reading.length : ℤ) = s.readers
  alone : s.writer = true → s.readers = 0
  nodup : s.queue.Nodup
  length : (s.queue.length : ℤ) = s.blocked
  mem : ∀ t, t ∈ s.queue ↔ (s.pc t).blocked = true
  asleep : ∀ t, t ∈ s.sleeping ↔ (s.pc t).asleep = true
  once : s.sleeping.Nodup
  stays : ∀ t, s.pc t ≠ .givesUp

structure Due (s : State θ) : Prop where
  rle : ∀ t v b, s.pc t = .rwait v b → v ≤ s.rseq
  rnow : ∀ t b, s.pc t = .rwait s.rseq b → s.Wanted
  rparked : ∀ t b, s.pc t = .rparked b → s.Wanted ∨ ∃ u, s.pc u = .wakesReaders
  wle : ∀ t v b, s.pc t = .wwait v b → v ≤ s.wseq
  wnow : ∀ t b, s.pc t = .wwait s.wseq b → s.Held
  wparked : ∀ t b, s.pc t = .wparked b → s.Held ∨ ∃ u, (s.pc u).ForWriter s.wseq

variable {s s' : State θ} {pc : Pc} {timed : Bool}

theorem Counts.excludes (h : Counts s) : Excludes s := by
  have hw := h.writing
  have hr := h.reading
  cases hs : s.writer with
  | false => exact .inl (by simpa [hs] using hw)
  | true =>
    rw [hs] at hw
    obtain ⟨t, ht⟩ := List.length_eq_one_iff.mp hw
    exact .inr ⟨t, ht, by simpa [h.alone hs] using hr⟩

theorem Counts.blocked_eq_zero (h : Counts s) :
    s.blocked = 0 ↔ ∀ u, (s.pc u).blocked = false := by
  rw [← h.length, Int.natCast_eq_zero, List.length_eq_zero_iff, List.eq_nil_iff_forall_not_mem]
  simp [h.mem]

theorem Due.strandsNobody (h : Due s) (hc : Counts s) : StrandsNobody s := by
  intro hquiet hw hr t
  have hwriter : s.writer = false := by
    have := hc.writing
    cases hs : s.writer <;> simp_all
  have hreaders : s.readers = 0 := by simpa [hr] using hc.reading.symm
  -- no writer is parked, so none is counted, and no reader has a reason to wait
  have hparked : ∀ u b, s.pc u ≠ .wparked b := by
    intro u b hu
    rcases h.wparked u b hu with hheld | ⟨v, hv⟩
    · simp [State.Held, hwriter, hreaders] at hheld
    · rcases hquiet v with hv' | ⟨b, hv'⟩ | ⟨b, hv'⟩ <;> simp [hv', Pc.ForWriter] at hv
  have hblocked : s.blocked = 0 := hc.blocked_eq_zero.mpr (by grind [Pc.blocked])
  rcases hquiet t with ht | ⟨b, ht⟩ | ⟨b, ht⟩
  · exact ht
  · rcases h.rparked t b ht with hwanted | ⟨u, hu⟩
    · simp [State.Wanted, hwriter, hblocked] at hwanted
    · grind
  · exact absurd ht (hparked t b)

theorem Counts.readers_add (h : Counts s) (hlt : s.readers < 2 ^ 31 - 1) :
    toInt32 (s.readers + 1) = s.readers + 1 ∧ 0 ≤ s.readers := by
  have := h.reading
  exact ⟨toInt32_of_range (by omega) (by omega), by omega⟩

theorem Counts.blocked_add (h : Counts s) (hlt : s.blocked < 2 ^ 31 - 1) :
    toInt32 (s.blocked + 1) = s.blocked + 1 ∧ 0 ≤ s.blocked := by
  have := h.length
  exact ⟨toInt32_of_range (by omega) (by omega), by omega⟩

section Keep

variable [DecidableEq θ]

theorem exists_update {f : θ → Pc} {P : Pc → Prop} (h : ∃ u, P (f u)) (ht : P (f t) → P pc) :
    ∃ u, P (Function.update f t pc u) := by
  obtain ⟨u, hu⟩ := h
  refine ⟨u, ?_⟩
  by_cases hut : u = t
  · subst hut
    simpa using ht hu
  · simpa [hut] using hu

def Pc.Fits (s : State θ) : Pc → Prop
  | .rwait v _ => v = s.rseq ∧ s.Wanted
  | .rparked _ => s.Wanted
  | .wwait v _ => v = s.wseq ∧ s.Held
  | .wparked _ => s.Held
  | _ => True

theorem Due.step (h : Due s) (hpc : s'.pc = Function.update s.pc t pc) (hr : s.rseq ≤ s'.rseq)
    (hw : s.wseq ≤ s'.wseq)
    (hwanted : s.Wanted → s'.Wanted ∨ s.rseq < s'.rseq ∧ pc = .wakesReaders)
    (hheld : s.Held → s'.Held ∨ (s.wseq < s'.wseq ∧ pc = .wakesWriter) ∨
      ∀ u, (s'.pc u).blocked = false)
    (hold : s.pc t ≠ .wakesReaders)
    (hold' : (s.pc t).ForWriter s.wseq → s'.Held ∨ pc.ForWriter s'.wseq) (hnew : pc.Fits s') :
    Due s' := by
  have hat : ∀ u, s'.pc u = if u = t then pc else s.pc u := fun u => by
    rw [hpc, Function.update_apply]
  constructor
  · intro u v b hu
    have hle := h.rle u v b
    grind [Pc.Fits]
  · intro u b hu
    have hle := h.rle u s'.rseq b
    have hnow := h.rnow u b
    grind [Pc.Fits]
  · intro u b hu
    by_cases hut : u = t
    · grind [Pc.Fits]
    · have hex := h.rparked u b (by grind)
      have : (∃ u, s.pc u = .wakesReaders) → ∃ u, s'.pc u = .wakesReaders := by
        rw [hpc]
        exact fun hex => exists_update (P := (· = .wakesReaders)) hex (by grind)
      have hself : pc = .wakesReaders → ∃ u, s'.pc u = .wakesReaders := fun h => ⟨t, by grind⟩
      grind
  · intro u v b hu
    have hle := h.wle u v b
    grind [Pc.Fits]
  · intro u b hu
    have hle := h.wle u s'.wseq b
    have hnow := h.wnow u b
    have hblocked : (s'.pc u).blocked = true := by rw [hu]; rfl
    grind [Pc.Fits]
  · intro u b hu
    have hblocked : (s'.pc u).blocked = true := by rw [hu]; rfl
    by_cases hut : u = t
    · grind [Pc.Fits]
    · have hself : pc.ForWriter s'.wseq → ∃ u, (s'.pc u).ForWriter s'.wseq := fun h => ⟨t, by grind⟩
      rcases h.wparked u b (by grind) with hh | ⟨v, hv⟩
      · rcases hheld hh with hh | ⟨-, rfl⟩ | hnone
        · exact .inl hh
        · exact .inr (hself trivial)
        · grind
      · by_cases hvt : v = t
        · subst hvt
          exact (hold' hv).imp_right hself
        · refine .inr ⟨v, ?_⟩
          rw [hat, if_neg hvt]
          cases hs : s.pc v <;> simp_all [Pc.ForWriter]
          omega

structure Inv (s : State θ) : Prop extends Counts s, Due s

theorem Counts.move (h : Counts s) (hpc : s'.pc = Function.update s.pc t pc)
    (hb : pc.blocked = (s.pc t).blocked) (hs : pc.asleep = (s.pc t).asleep) (hg : pc ≠ .givesUp)
    (hqueue : s'.queue = s.queue) (hblocked : s'.blocked = s.blocked)
    (hsleeping : s'.sleeping = s.sleeping) (hw : s'.writing.length = s'.writer.toNat)
    (hr : (s'.reading.length : ℤ) = s'.readers) (ha : s'.writer = true → s'.readers = 0) :
    Counts s' := by
  have hat : ∀ u, s'.pc u = if u = t then pc else s.pc u := fun u => by
    rw [hpc, Function.update_apply]
  refine ⟨hw, hr, ha, hqueue ▸ h.nodup, by rw [hqueue, hblocked, h.length], ?_, ?_,
    hsleeping ▸ h.once, ?_⟩
  · grind [h.mem]
  · grind [h.asleep]
  · grind [h.stays]

theorem Inv.goto (h : Inv s) (hb : pc.blocked = (s.pc t).blocked)
    (hs : pc.asleep = (s.pc t).asleep) (hg : pc ≠ .givesUp) (hold : s.pc t ≠ .wakesReaders)
    (hold' : (s.pc t).ForWriter s.wseq → pc.ForWriter s.wseq ∨ s.Held) (hnew : pc.Fits s) :
    Inv (s.goto t pc) :=
  ⟨h.toCounts.move rfl hb hs hg rfl rfl rfl h.writing h.reading h.alone,
    h.toDue.step rfl (Nat.le_refl _) (Nat.le_refl _) .inl .inl hold (fun h => (hold' h).symm) (by
      cases pc <;> exact hnew)⟩

theorem Inv.readSection (h : Inv s) (hlt : s.readers < 2 ^ 31 - 1)
    (ht : s.pc t = .outside ∨ s.pc t = .rwoken timed) : Inv (readSection s t timed) := by
  obtain ⟨hinc, hnonneg⟩ := h.toCounts.readers_add hlt
  unfold Rwlock.readSection
  split
  · next hwanted =>
    exact h.goto (by grind [Pc.blocked]) (by grind [Pc.asleep]) (by simp) (by grind)
      (by grind [Pc.ForWriter]) ⟨rfl, hwanted⟩
  · next hfree =>
    refine ⟨h.toCounts.move rfl (by grind [Pc.blocked]) (by grind [Pc.asleep]) (by simp) rfl rfl rfl
      h.writing (by simp [State.goto, h.reading, hinc]) (by grind [State.goto]), ?_⟩
    have hpos : 0 < toInt32 (s.readers + 1) := by omega
    exact h.toDue.step rfl (Nat.le_refl _) (Nat.le_refl _) (fun hw => absurd hw hfree)
      (fun _ => .inl (.inr hpos)) (by grind) (by grind [Pc.ForWriter]) trivial

theorem Inv.trywrlock (h : Inv s) (ht : s.pc t = .outside)
    (hfree : ¬(s.writer = true ∨ 0 < s.readers)) :
    Inv { s with writer := true, writing := t :: s.writing } := by
  have hw := h.writing
  have hr := h.reading
  have hsame : s.pc = Function.update s.pc t .outside := by simp [← ht]
  refine ⟨h.toCounts.move hsame (by rw [ht]) (by rw [ht]) (by simp) rfl rfl rfl ?_ h.reading
    (by grind), ?_⟩
  · have hwriter : s.writer = false := by simpa using (not_or.mp hfree).1
    simpa [hwriter] using hw
  · exact h.toDue.step hsame (Nat.le_refl _) (Nat.le_refl _) (fun _ => .inl (.inl rfl))
      (fun _ => .inl (.inl rfl)) (by simp [ht]) (fun _ => .inl (.inl rfl)) trivial

theorem Inv.writeSection (h : Inv s) (hlt : s.blocked < 2 ^ 31 - 1) (ht : s.pc t = .wwoken timed) :
    Inv (writeSection s t timed) := by
  unfold Rwlock.writeSection
  split
  · next hheld =>
    exact h.goto (by grind [Pc.blocked]) (by grind [Pc.asleep]) (by simp) (by grind)
      (fun _ => .inr hheld)
      ⟨rfl, hheld⟩
  · next hfree =>
    have hmem : t ∈ s.queue := (h.mem t).mpr (by rw [ht]; rfl)
    have hw := h.writing
    have hr := h.reading
    constructor
    · constructor <;> dsimp only [State.goto]
      · simp_all
      · exact h.reading
      · grind
      · exact h.nodup.erase t
      · have hlen := h.length
        have hpos := List.length_pos_of_mem hmem
        rw [List.length_erase_of_mem hmem, toInt32_of_range (by omega) (by omega)]
        omega
      · grind [h.mem, h.nodup.mem_erase_iff, Pc.blocked, Function.update_apply]
      · grind [h.asleep, Pc.asleep, Function.update_apply]
      · exact h.once
      · grind [h.stays, Function.update_apply]
    · exact h.toDue.step rfl (Nat.le_refl _) (Nat.le_refl _) (fun _ => .inl (.inl rfl))
        (fun _ => .inl (.inl rfl)) (by grind) (fun _ => .inl (.inl rfl)) trivial

theorem Inv.wrlock (h : Inv s) (hlt : s.blocked < 2 ^ 31 - 1) (ht : s.pc t = .outside) :
    Inv (Rwlock.writeSection
      { s with blocked := toInt32 (s.blocked + 1), queue := t :: s.queue } t timed) := by
  obtain ⟨hinc, hnonneg⟩ := h.toCounts.blocked_add hlt
  rw [hinc]
  unfold Rwlock.writeSection
  split
  · next hheld =>
    constructor
    · constructor <;> dsimp only [State.goto]
      · exact h.writing
      · exact h.reading
      · exact h.alone
      · exact List.nodup_cons.mpr ⟨by simp [h.mem, ht, Pc.blocked], h.nodup⟩
      · simp [h.length]
      · grind [h.mem, Pc.blocked, Function.update_apply]
      · grind [h.asleep, Pc.asleep, Function.update_apply]
      · exact h.once
      · grind [h.stays, Function.update_apply]
    · have hpos : 0 < s.blocked + 1 := by omega
      exact h.toDue.step rfl (Nat.le_refl _) (Nat.le_refl _) (fun _ => .inl (.inr hpos))
        .inl (by grind) (fun _ => .inl hheld) ⟨rfl, hheld⟩
  · next hfree =>
    have htake := h.trywrlock ht hfree
    have hback : toInt32 s.blocked = s.blocked := toInt32_of_range (by omega) (by omega)
    simpa [State.goto, ← ht, hback] using htake

theorem Inv.unlock (h : Inv s) (hlt : s.readers < 2 ^ 31 - 1) (ht : s.pc t = .outside) (hmem : t ∈ s.writing ∨ t ∈ s.reading) :
    Inv (unlock s t) := by
  have hnone := h.blocked_eq_zero
  have hw := h.writing
  have hr := h.reading
  unfold Rwlock.unlock
  split
  · next hwriter =>
    have hone : (s.writing.erase t).length = 0 := by
      have halone := h.alone hwriter
      rw [hwriter] at hw
      have hin : t ∈ s.writing := by
        refine hmem.resolve_right fun hin => ?_
        have := List.length_pos_of_mem hin
        omega
      rw [List.length_erase_of_mem hin, hw]
      rfl
    dsimp only
    split
    · next hblocked =>
      refine ⟨h.toCounts.move rfl (by grind [Pc.blocked]) (by grind [Pc.asleep])
        (by simp) rfl rfl rfl
        hone h.reading (by simp [State.goto]), ?_⟩
      exact h.toDue.step rfl (Nat.le_refl _) (Nat.le_succ _) (fun _ => .inl (.inr hblocked))
        (fun _ => .inr (.inl ⟨Nat.lt_succ_self _, rfl⟩)) (by grind)
          (by grind [Pc.ForWriter]) trivial
    · next hblocked =>
      refine ⟨h.toCounts.move rfl (by grind [Pc.blocked]) (by grind [Pc.asleep])
        (by simp) rfl rfl rfl
        hone h.reading (by simp [State.goto]), ?_⟩
      refine h.toDue.step rfl (Nat.le_succ _) (Nat.le_refl _)
        (fun _ => .inr ⟨Nat.lt_succ_self _, rfl⟩) (fun _ => .inr (.inr ?_)) (by grind)
        (by grind [Pc.ForWriter]) trivial
      intro u
      dsimp only [State.goto]
      rw [Function.update_apply]
      split
      · rfl
      · have := h.length
        exact hnone.mp (by omega) u
  · next hwriter =>
    split
    · next hpos =>
      have hin : t ∈ s.reading := by
        refine hmem.resolve_left fun hin => ?_
        have := List.length_pos_of_mem hin
        simp_all
      have hdec : toInt32 (s.readers - 1) = s.readers - 1 :=
        toInt32_of_range (by omega) (by omega)
      have hless : ((s.reading.erase t).length : ℤ) = s.readers - 1 := by
        rw [List.length_erase_of_mem hin]
        omega
      have hnonneg := h.length
      rw [hdec]
      dsimp only
      split
      · next hlast =>
        refine ⟨h.toCounts.move rfl (by grind [Pc.blocked]) (by grind [Pc.asleep])
          (by simp) rfl rfl rfl
          h.writing hless (by grind [State.goto]), ?_⟩
        exact h.toDue.step rfl (Nat.le_refl _) (Nat.le_succ _) .inl
          (fun _ => .inr (.inl ⟨Nat.lt_succ_self _, rfl⟩)) (by grind)
            (by grind [Pc.ForWriter]) trivial
      · next hlast =>
        have hsame : s.pc = Function.update s.pc t .outside := by simp [← ht]
        refine ⟨h.toCounts.move hsame (by rw [ht]) (by rw [ht])
          (by simp) rfl rfl rfl h.writing hless
          (by grind), ?_⟩
        refine h.toDue.step hsame (Nat.le_refl _) (Nat.le_refl _) .inl (fun _ => ?_) (by grind)
          (by grind [Pc.ForWriter]) trivial
        by_cases hmore : s.readers - 1 = 0
        · exact .inr (.inr (hnone.mp (by omega)))
        · exact .inl (.inr (by dsimp only; omega))
    · exact h

theorem Inv.wakeReaders (h : Inv s) (ht : s.pc t = .wakesReaders) :
    Inv ({ s with pc := fun u => (s.pc u).readerWoken }.goto t .outside) := by
  have hb : ∀ u, (s.pc u).readerWoken.blocked = (s.pc u).blocked ∧
      (s.pc u).readerWoken.asleep = (s.pc u).asleep ∧
      ∀ n, (s.pc u).readerWoken.ForWriter n ↔ (s.pc u).ForWriter n := fun u => by
    cases s.pc u <;> exact ⟨rfl, rfl, fun _ => Iff.rfl⟩
  have hat : ∀ u, Function.update (fun u => (s.pc u).readerWoken) t .outside u =
      if u = t then .outside else (s.pc u).readerWoken := fun u => Function.update_apply ..
  have hback : ∀ u pc, (s.pc u).readerWoken = pc → (∃ b, pc = .rwoken b) ∨ s.pc u = pc ∧
      ∀ b, pc ≠ .rparked b := by
    intro u pc hu
    cases hs : s.pc u <;> grind [Pc.readerWoken]
  constructor
  · refine ⟨h.writing, h.reading, h.alone, h.nodup, h.length, ?_, ?_, h.once, ?_⟩ <;>
      dsimp only [State.goto]
    · grind [h.mem, Pc.blocked]
    · grind [h.asleep, Pc.asleep]
    · grind [h.stays]
  · constructor <;> dsimp only [State.goto]
    · exact fun u v b hu => h.rle u v b (by grind)
    · exact fun u b hu => h.rnow u b (by grind)
    · grind
    · exact fun u v b hu => h.wle u v b (by grind)
    · intro u b hu
      exact h.wnow u b (by grind)
    · intro u b hu
      refine (h.wparked u b (by grind)).imp_right ?_
      rintro ⟨v, hv⟩
      exact ⟨v, by grind [Pc.ForWriter]⟩

theorem Inv.wakeWriter (h : Inv s) (ht : s.pc t = .wakesWriter) :
    Inv ((wakeWriter s).goto t .outside) := by
  unfold Rwlock.wakeWriter
  split
  · next hnone =>
    have hparked : ∀ u b, s.pc u ≠ .wparked b := by
      intro u b hu
      have := (h.asleep u).mpr (by rw [hu]; rfl)
      simp [hnone] at this
    refine ⟨h.toCounts.move rfl (by rw [ht]; rfl) (by rw [ht]; rfl) (by simp) rfl rfl rfl h.writing
      h.reading h.alone, ?_⟩
    constructor <;> dsimp only [State.goto]
    · exact fun u v b hu => h.rle u v b (by grind [Function.update_apply])
    · exact fun u b hu => h.rnow u b (by grind [Function.update_apply])
    · exact fun u b hu => (h.rparked u b (by grind [Function.update_apply])).imp_right fun hex =>
        exists_update (P := (· = .wakesReaders)) hex (by grind)
    · exact fun u v b hu => h.wle u v b (by grind [Function.update_apply])
    · exact fun u b hu => h.wnow u b (by grind [Function.update_apply])
    · grind [Function.update_apply]
  · next u rest hsleeping =>
    have hu : (s.pc u).asleep = true := (h.asleep u).mp (by simp [hsleeping])
    have hne : u ≠ t := by
      rintro rfl
      simp [ht, Pc.asleep] at hu
    have honce := h.once
    rw [hsleeping, List.nodup_cons] at honce
    -- the writer that was woken is going to look at the lock
    have hfirst : Inv ({ s with sleeping := rest }.goto u
      (.wwoken (s.pc u = Pc.wparked true))) := by
      constructor
      · refine ⟨h.writing, h.reading, h.alone, h.nodup, h.length, ?_, ?_, honce.2, ?_⟩ <;>
          dsimp only [State.goto]
        · cases hs : s.pc u <;> grind [h.mem, Pc.blocked, Pc.asleep, Function.update_apply]
        · grind [h.asleep, Pc.asleep, Function.update_apply]
        · grind [h.stays, Function.update_apply]
      · exact h.toDue.step rfl (Nat.le_refl _) (Nat.le_refl _) .inl .inl (by grind [Pc.asleep])
          (fun _ => .inr trivial) trivial
    refine ⟨hfirst.toCounts.move rfl ?_ ?_ (by simp) rfl rfl rfl h.writing h.reading h.alone, ?_⟩
    · simp [State.goto, Ne.symm hne, ht, Pc.blocked]
    · simp [State.goto, Ne.symm hne, ht, Pc.asleep]
    · have hawake : ∃ v, (Function.update (Function.update s.pc u
          (.wwoken (s.pc u = Pc.wparked true))) t .outside v).ForWriter s.wseq :=
        ⟨u, by simp [hne, Pc.ForWriter]⟩
      constructor <;> dsimp only [State.goto]
      · exact fun v n b hv => h.rle v n b (by grind [Function.update_apply])
      · exact fun v b hv => h.rnow v b (by grind [Function.update_apply])
      · intro v b hv
        refine (h.rparked v b (by grind [Function.update_apply])).imp_right ?_
        rintro ⟨w, hw⟩
        exact ⟨w, by grind [Pc.asleep, Function.update_apply]⟩
      · exact fun v n b hv => h.wle v n b (by grind [Function.update_apply])
      · exact fun v b hv => h.wnow v b (by grind [Function.update_apply])
      · exact fun _ _ _ => .inr hawake

theorem Inv.leaveWait (h : Inv s) (ht : s.pc t = .wparked timed) :
    Inv (leaveWait s t (.wwoken timed)) := by
  constructor
  · refine ⟨h.writing, h.reading, h.alone, h.nodup, h.length, ?_, ?_, h.once.erase t, ?_⟩ <;>
      dsimp only [Rwlock.leaveWait, State.goto]
    · grind [h.mem, Pc.blocked, Function.update_apply]
    · grind [h.asleep, h.once.mem_erase_iff, Pc.asleep, Function.update_apply]
    · grind [h.stays, Function.update_apply]
  · exact h.toDue.step rfl (Nat.le_refl _) (Nat.le_refl _) .inl .inl (by grind)
      (fun _ => .inr trivial) trivial

theorem Inv.park {v : ℕ} (h : Inv s) (ht : s.pc t = .wwait v timed) (hheld : s.Held) :
    Inv ({ s with sleeping := s.sleeping ++ [t] }.goto t (.wparked timed)) := by
  have hnot : t ∉ s.sleeping := by simp [h.asleep, ht, Pc.asleep]
  constructor
  · refine ⟨h.writing, h.reading, h.alone, h.nodup, h.length, ?_, ?_, ?_, ?_⟩ <;>
      dsimp only [State.goto]
    · grind [h.mem, Pc.blocked, Function.update_apply]
    · grind [h.asleep, Pc.asleep, Function.update_apply]
    · exact List.nodup_append.mpr ⟨h.once, by simp, by grind⟩
    · grind [h.stays, Function.update_apply]
  · exact h.toDue.step rfl (Nat.le_refl _) (Nat.le_refl _) .inl .inl (by grind)
      (fun _ => .inl hheld) hheld

theorem Inv.step {l : θ × Act} (h : Inv s) (hg : guarded s l = true)
    (hs : Rwlock.step s l = some s') : Inv s' := by
  obtain ⟨t, a⟩ := l
  obtain ⟨hreaders, hblocked⟩ := few_of_guarded hg
  unfold Rwlock.step at hs
  dsimp only at hs
  split at hs
  · next ht =>
    cases hs
    exact h.readSection hreaders (.inl ht)
  · next ht =>
    cases hs
    split
    · exact h
    · exact h.readSection hreaders (.inl ht)
  · next ht =>
    cases hs
    exact h.wrlock hblocked ht
  · next ht =>
    cases hs
    split
    · exact h
    · next hfree => exact h.trywrlock ht hfree
  · next ht =>
    split at hs
    · next hmem =>
      cases hs
      exact h.unlock hreaders ht hmem
    · cases hs
  · next v timed ht =>
    cases hs
    have hle := h.rle t v timed ht
    have hlt : s.rseq < v + 2 ^ 32 := by
      simp only [guarded, ht, Bool.and_eq_true, decide_eq_true_eq] at hg
      exact hg.2
    split
    · next heq =>
      have hv : v = s.rseq := by omega
      exact h.goto (by rw [ht]; rfl) (by rw [ht]; rfl) (by simp) (by simp [ht])
        (by simp [ht, Pc.ForWriter]) (h.rnow t timed (hv ▸ ht))
    · exact h.goto (by rw [ht]; rfl) (by rw [ht]; rfl) (by simp) (by simp [ht])
        (by simp [ht, Pc.ForWriter]) trivial
  · next v timed ht =>
    cases hs
    have hle := h.wle t v timed ht
    have hlt : s.wseq < v + 2 ^ 32 := by
      simp only [guarded, ht, Bool.and_eq_true, decide_eq_true_eq] at hg
      exact hg.2
    split
    · next heq =>
      have hv : v = s.wseq := by omega
      exact h.park ht (h.wnow t timed (hv ▸ ht))
    · exact h.goto (by rw [ht]; rfl) (by rw [ht]; rfl) (by simp) (by simp [ht])
        (fun _ => .inl trivial) trivial
  · next ht =>
    cases hs
    exact h.readSection hreaders (.inr ht)
  · next ht =>
    cases hs
    exact h.writeSection hblocked ht
  · next ht =>
    cases hs
    exact h.goto (by rw [ht]; rfl) (by rw [ht]; rfl) (by simp) (by simp [ht])
      (by simp [ht, Pc.ForWriter]) trivial
  · next ht =>
    cases hs
    exact h.goto (by rw [ht]; rfl) (by rw [ht]; rfl) (by simp) (by simp [ht])
      (by simp [ht, Pc.ForWriter]) trivial
  · next ht => simp [guarded, ht, Pc.blocked] at hg
  · next ht => simp [guarded, ht, Pc.blocked] at hg
  · next ht => exact absurd ht (h.stays t)
  · next ht =>
    cases hs
    exact h.goto (by rw [ht]; rfl) (by rw [ht]; rfl) (by simp) (by simp [ht])
      (by simp [ht, Pc.ForWriter]) trivial
  · next ht =>
    cases hs
    exact h.leaveWait ht
  · next ht =>
    cases hs
    exact h.wakeReaders ht
  · next ht =>
    cases hs
    exact h.wakeWriter ht
  · cases hs

end Keep

theorem Inv.init : Inv (init : State θ) := by
  constructor <;> constructor <;> simp [Rwlock.init, Pc.blocked, Pc.asleep]

/-- While no writer gives up and no count overflows, the lock keeps its writers alone and strands
nobody. -/
theorem rwlock_excludes_and_wakes [DecidableEq θ] (ls : List (θ × Act)) (s : State θ)
    (hg : StepsMeet step (fun s l => guarded s l = true) init ls)
    (hrun : runSteps step init ls = some s) : Excludes s ∧ StrandsNobody s := by
  have h : Inv s := runSteps_invariant_of_guard (fun _ _ _ h hg hs => h.step hg hs) Inv.init hg hrun
  exact ⟨h.toCounts.excludes, h.toDue.strandsNobody h.toCounts⟩

def readerRun (t u : θ) : List (θ × Act) :=
  [(t, .wrlock false), (u, .rdlock false), (u, .wait), (t, .unlock), (t, .wake), (u, .recheck)]

theorem rwlock_excludes_and_wakes_reader :
    ∃ s, runSteps step init (readerRun (0 : Fin 2) 1) = some s ∧ s.reading = [1] ∧ Excludes s ∧
      StrandsNobody s :=
  ⟨_, rfl, rfl, rwlock_excludes_and_wakes (readerRun (0 : Fin 2) 1) _ (by decide) rfl⟩

def timeoutRun (t u w : θ) : List (θ × Act) :=
  [(t, .rdlock false), (u, .wrlock true), (w, .rdlock false), (w, .wait), (u, .timeout),
    (u, .giveUp), (t, .unlock)]

/-- The lock is free and the reader is parked. -/
theorem reader_stays_parked :
    ∃ s, runSteps step init (timeoutRun (0 : Fin 3) 1 2) = some s ∧ s.pc 2 = .rparked false ∧
      s.reading = [] ∧ s.writing = [] ∧ ¬StrandsNobody s := by
  refine ⟨_, rfl, rfl, rfl, rfl, fun h => ?_⟩
  exact absurd (h (by decide) rfl rfl 2) (by decide)

end Uros.Pthread.Rwlock
