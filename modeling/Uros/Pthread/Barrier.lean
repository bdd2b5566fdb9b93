import Mathlib.Data.Fintype.Card
import Mathlib.Logic.Function.Basic
import Uros.Foundation.Transition

/-!
Barriers of libpthreads.

The part of `pthread_barrier_wait` under the spin lock is one step: it alone writes the
barrier, and of what it writes the rest of the code reads only the phase.  A futex wait
compares the word and parks in one step.  The cycles are counted by a history, which the
code does not see.
-/

namespace Uros.Pthread.Barrier

open Uros.Foundation

variable {θ : Type} {n c : ℕ} {p : Bool} {t u : θ}

/-- Where a thread is.  In the loop it has the phase that it saw and the number of its
cycle; the last thread of a cycle goes to wake the others. -/
inductive Pc where
  | outside
  | loads (phase : Bool) (cycle : ℕ)
  | waits (phase : Bool) (cycle : ℕ)
  | parked (phase : Bool) (cycle : ℕ)
  | wakes (cycle : ℕ)
  deriving DecidableEq

def Pc.call : Pc → Option (Bool × ℕ)
  | .loads p c | .waits p c | .parked p c => some (p, c)
  | .outside | .wakes _ => none

def Pc.woken : Pc → Pc
  | .parked p c => .loads p c
  | pc => pc

/-- A barrier and the threads that use it.  The rest is history: the cycle under way and
the threads that it has, and for every cycle how many calls arrived and how many returned
`PTHREAD_BARRIER_SERIAL_THREAD`. -/
structure State (θ : Type) where
  waiting : ℕ
  phase : Bool
  pc : θ → Pc
  cycle : ℕ
  inside : List θ
  arrived : ℕ → ℕ
  serial : ℕ → ℕ

def init (count : ℕ) : Option (State θ) :=
  if count = 0 then none
  else some ⟨0, false, fun _ => .outside, 0, [], fun _ => 0, fun _ => 0⟩

inductive Act where
  | arrive
  | load
  | wait
  | wake
  | spurious
  deriving DecidableEq

section Steps

variable [DecidableEq θ]

def State.goto (s : State θ) (t : θ) (pc : Pc) : State θ :=
  { s with pc := Function.update s.pc t pc }

def arrive (n : ℕ) (s : State θ) (t : θ) : State θ :=
  let s' := { s with arrived := Function.update s.arrived s.cycle (s.arrived s.cycle + 1) }
  if s.waiting + 1 = n then
    { s' with waiting := 0, phase := !s.phase, cycle := s.cycle + 1, inside := [] }.goto t
      (.wakes s.cycle)
  else
    { s' with waiting := s.waiting + 1, inside := t :: s.inside }.goto t (.loads s.phase s.cycle)

def step (n : ℕ) (s : State θ) (l : θ × Act) : Option (State θ) :=
  match l.2, s.pc l.1 with
  | .arrive, .outside => some (arrive n s l.1)
  | .load, .loads p c => some (s.goto l.1 (if s.phase = p then .waits p c else .outside))
  | .wait, .waits p c => some (s.goto l.1 (if s.phase = p then .parked p c else .loads p c))
  | .spurious, .parked p c => some (s.goto l.1 (.loads p c))
  | .wake, .wakes c =>
    some { s with
      pc := Function.update (fun u => (s.pc u).woken) l.1 .outside
      serial := Function.update s.serial c (s.serial c + 1) }
  | _, _ => none

end Steps

def Returns (s : State θ) (l : θ × Act) (c : ℕ) : Prop :=
  (l.2 = .load ∧ ∃ p, s.pc l.1 = .loads p c ∧ s.phase ≠ p) ∨ (l.2 = .wake ∧ s.pc l.1 = .wakes c)

def OneSerial (s : State θ) (c : ℕ) : Prop :=
  (s.serial c = 1 ∧ ∀ t, s.pc t ≠ .wakes c) ∨
    (s.serial c = 0 ∧ ∃ t, s.pc t = .wakes c ∧ ∀ u, s.pc u = .wakes c → u = t)

structure Released (n : ℕ) (s : State θ) : Prop where
  full : ∀ l c, Returns s l c → s.arrived c = n
  serial : ∀ c, s.arrived c = n → OneSerial s c
  free : ∀ t p c, s.pc t = .parked p c → s.arrived c = n → ∃ u, s.pc u = .wakes c

structure Inv (n : ℕ) (s : State θ) : Prop where
  room : s.waiting < n
  length : s.inside.length = s.waiting
  nodup : s.inside.Nodup
  mem : ∀ t, t ∈ s.inside ↔ (s.pc t).call = some (s.phase, s.cycle)
  call : ∀ t p c, (s.pc t).call = some (p, c) →
    c = s.cycle ∧ p = s.phase ∨ c + 1 = s.cycle ∧ p = !s.phase
  arrived : ∀ c, s.arrived c = if c < s.cycle then n else if c = s.cycle then s.waiting else 0
  wakes : ∀ t c, s.pc t = .wakes c → c + 1 = s.cycle
  serial : ∀ c < s.cycle, OneSerial s c
  fresh : ∀ c, s.cycle ≤ c → s.serial c = 0
  parked : ∀ t p c, s.pc t = .parked p c → c < s.cycle → ∃ u, s.pc u = .wakes c

variable {s s' : State θ}

theorem Inv.complete_iff (h : Inv n s) : s.arrived c = n ↔ c < s.cycle := by
  have := h.room
  grind [h.arrived c]

theorem Inv.released (h : Inv n s) : Released n s where
  full l c hl := by
    refine h.complete_iff.mpr ?_
    obtain ⟨-, p, hpc, hp⟩ | ⟨-, hpc⟩ := hl
    · have := h.call l.1 p c (by rw [hpc]; rfl)
      grind
    · grind [h.wakes l.1 c hpc]
  serial c hc := h.serial c (h.complete_iff.mp hc)
  free t p c hpc hc := h.parked t p c hpc (h.complete_iff.mp hc)

theorem OneSerial.congr (h : OneSerial s c) (hserial : s'.serial c = s.serial c)
    (hpc : ∀ u, s'.pc u = .wakes c ↔ s.pc u = .wakes c) : OneSerial s' c := by
  simpa only [OneSerial, ne_eq, hpc, hserial] using h

theorem inv_init (h : init n = some s) : Inv n s := by
  unfold init at h
  split at h
  · cases h
  · obtain rfl := Option.some.inj h
    constructor <;> simp [Pc.call]
    omega

theorem Inv.all_inside [Fintype θ] (h : Inv n s) (hcard : Fintype.card θ ≤ n)
    (ht : s.pc t = .outside)
    (hlast : s.waiting + 1 = n) (hu : u ≠ t) : (s.pc u).call = some (s.phase, s.cycle) := by
  have hmem : t ∉ s.inside := by simp [h.mem, ht, Pc.call]
  by_contra hcall
  have hmem' : u ∉ t :: s.inside := by simp [hu, h.mem, hcall]
  have hlength := (List.Nodup.cons hmem' (List.Nodup.cons hmem h.nodup)).length_le_card
  grind [h.length]

variable [DecidableEq θ]

theorem Inv.goto {pc : Pc} (h : Inv n s) (ht : (s.pc t).call = some (p, c))
    (hpc : pc.call = some (p, c) ∨ pc = .outside ∧ p ≠ s.phase)
    (hparked : ∀ p c, pc = .parked p c → p = s.phase) : Inv n (s.goto t pc) := by
  have hwakes : ∀ u c, Function.update s.pc t pc u = .wakes c ↔ s.pc u = .wakes c := by
    grind [Pc.call, Function.update_apply]
  constructor <;> dsimp only [State.goto]
  · exact h.room
  · exact h.length
  · exact h.nodup
  · grind [h.mem, h.call t, Pc.call, Function.update_apply]
  · grind [h.call, Pc.call, Function.update_apply]
  · exact h.arrived
  · exact fun u c hu => h.wakes u c ((hwakes u c).mp hu)
  · exact fun c hc => (h.serial c hc).congr rfl fun u => hwakes u c
  · exact h.fresh
  · intro u q c' hu hc'
    have hold : s.pc u = .parked q c' := by
      grind [h.call t, Pc.call, Function.update_apply]
    obtain ⟨v, hv⟩ := h.parked u q c' hold hc'
    exact ⟨v, (hwakes v c').mpr hv⟩

theorem Inv.wake (h : Inv n s) (ht : s.pc t = .wakes c) :
    Inv n { s with
      pc := Function.update (fun u => (s.pc u).woken) t .outside
      serial := Function.update s.serial c (s.serial c + 1) } := by
  have hcycle := h.wakes t c ht
  -- a thread that goes to wake is of the cycle before, and that has only one
  have hone : s.serial c = 0 ∧ ∀ u c', s.pc u = .wakes c' → u = t ∧ c' = c := by
    have hserial := h.serial c (by omega)
    grind [OneSerial, h.wakes]
  have hcall : ∀ u, (Function.update (fun u => (s.pc u).woken) t .outside u).call =
      (s.pc u).call := by
    intro u
    cases hu : s.pc u <;> grind [Pc.call, Pc.woken, Function.update_apply]
  have hnot : ∀ u c', Function.update (fun u => (s.pc u).woken) t .outside u ≠ .wakes c' := by
    intro u c'
    cases hu : s.pc u <;> grind [Pc.woken, Function.update_apply]
  constructor <;> dsimp only
  · exact h.room
  · exact h.length
  · exact h.nodup
  · simpa only [hcall] using h.mem
  · simpa only [hcall] using h.call
  · exact h.arrived
  · exact fun u c' hu => absurd hu (hnot u c')
  · intro c' hc'
    refine .inl ⟨?_, fun u => hnot u c'⟩
    have hserial := h.serial c' hc'
    grind [OneSerial, Function.update_apply]
  · grind [h.fresh, Function.update_apply]
  · intro u q c' hu
    cases hs : s.pc u <;> grind [Pc.woken, Function.update_apply]

variable [Fintype θ]

theorem Inv.arrive (h : Inv n s) (hcard : Fintype.card θ ≤ n) (ht : s.pc t = .outside) :
    Inv n (arrive n s t) := by
  have hroom := h.room
  unfold Barrier.arrive
  dsimp only
  split
  · next hlast =>
    have hothers := fun u hu => h.all_inside (u := u) hcard ht hlast hu
    have hwakes : ∀ u c, s.pc u ≠ .wakes c := by grind [Pc.call]
    constructor <;> dsimp only [State.goto]
    · omega
    · rfl
    · exact List.nodup_nil
    · grind [Pc.call, Function.update_apply]
    · grind [Pc.call, Function.update_apply]
    · grind [h.arrived, Function.update_apply]
    · grind [Pc.call, Function.update_apply]
    · intro c hc
      by_cases hnew : c = s.cycle
      · refine .inr ⟨h.fresh c (by omega), t, by simp [hnew], ?_⟩
        grind [Function.update_apply]
      · grind [h.serial c (by omega), OneSerial, Function.update_apply]
    · grind [h.fresh]
    · exact fun _ _ c hu hc => ⟨t, by grind [Pc.call, Function.update_apply]⟩
  · have hwakes : ∀ u c, Function.update s.pc t (.loads s.phase s.cycle) u = .wakes c ↔
        s.pc u = .wakes c := by
      grind [Function.update_apply]
    constructor <;> dsimp only [State.goto]
    · omega
    · simp [h.length]
    · exact List.Nodup.cons (by simp [h.mem, ht, Pc.call]) h.nodup
    · grind [h.mem, Pc.call, Function.update_apply]
    · grind [h.call, Pc.call, Function.update_apply]
    · grind [h.arrived, Function.update_apply]
    · exact fun u c hu => h.wakes u c ((hwakes u c).mp hu)
    · exact fun c hc => (h.serial c hc).congr rfl fun u => hwakes u c
    · exact h.fresh
    · intro u q c hu hc
      obtain ⟨v, hv⟩ := h.parked u q c (by grind [Function.update_apply]) hc
      exact ⟨v, (hwakes v c).mpr hv⟩

theorem Inv.step {l : θ × Act} (h : Inv n s) (hcard : Fintype.card θ ≤ n)
    (hstep : step n s l = some s') : Inv n s' := by
  unfold Barrier.step at hstep
  split at hstep
  · next hpc => exact Option.some.inj hstep ▸ h.arrive hcard hpc
  · next p c _ hpc =>
    obtain rfl := Option.some.inj hstep
    exact h.goto (p := p) (c := c) (by rw [hpc]; rfl) (by grind [Pc.call]) (by grind)
  · next p c _ hpc =>
    obtain rfl := Option.some.inj hstep
    exact h.goto (p := p) (c := c) (by rw [hpc]; rfl) (by grind [Pc.call]) (by grind)
  · next p c _ hpc =>
    obtain rfl := Option.some.inj hstep
    exact h.goto (p := p) (c := c) (by rw [hpc]; rfl) (.inl rfl) (by grind)
  · next hpc => exact Option.some.inj hstep ▸ h.wake hpc
  · cases hstep

/-- Three threads at a barrier for two: `t` is slow, the others complete its cycle and the
next, and it parks. -/
def slowRun (t u w : θ) : List (θ × Act) :=
  [(t, .arrive), (u, .arrive), (u, .wake), (u, .arrive), (w, .arrive), (w, .wake), (u, .load),
    (t, .load), (t, .wait)]

end Uros.Pthread.Barrier
