import Mathlib.Algebra.Ring.Nat
import Mathlib.Logic.Function.Basic
import Uros.Foundation.Transition

/-!
Forwarding of interrupts to user space (`device/device_master.c`), with the settings of the
lines (`take_irq`, `reset_irq`) and the mask table of the 8259 pair (`pic.c`).

The kernel is the one without an I/O APIC, so every forwarded line is masked while its
notification is in flight.  A function that ends in `while (1)` has no result.
-/

namespace Uros.Device

open Uros.Foundation

abbrev Line := Fin 16

abbrev Level := Fin 9

abbrev Port := ℕ

def spl6 : ℕ := 6

inductive Handler where
  | none
  | intnull
  | forward
  | driver (n : ℕ)
  deriving DecidableEq

structure Setting where
  unit : ℕ
  pri : ℕ
  handler : Handler
  deriving DecidableEq

/-- The forwarding thread, by its next access: the scan at a line, with what it has sent so
far, the send for a line, the registration of its wait, the second look, and the block. -/
inductive Pc where
  | scan (i : ℕ) (any : Bool)
  | sends (i : Line)
  | asserts
  | rechecks (i : ℕ)
  | blocked
  deriving DecidableEq

/-- `saved` are the settings that a registration has replaced.  `waiting` is the wait that the
thread has registered and that nobody has satisfied.  The lines whose last interrupt has no
notification yet (`owed`), and those that the handler has masked since the last
`device_intr_enable` (`held`), are history. -/
structure State where
  setting : Line → Setting
  picMask : Level → Line → Bool
  forced : Line → Bool
  saved : Line → Setting
  port : Line → Option Port
  active : Line → Bool
  pending : Line → ℕ
  refs : Port → ℕ
  pc : Pc
  waiting : Bool
  owed : Line → Bool
  held : Line → Bool

inductive KernReturn where
  | success
  | invalidArgument
  | resourceShortage
  deriving DecidableEq

def formMask (pri : Line → ℕ) (level : Level) (i : Line) : Bool :=
  decide (pri i ≤ level) && !(decide (i = 2) && decide (∃ j : Line, 8 ≤ j.val ∧ level < pri j))

def formPicMask (s : State) : State :=
  { s with picMask := formMask fun i => (s.setting i).pri }

def takeIrq (s : State) (i : Line) (new : Setting) : Option State :=
  if (s.setting i).pri = 0 then
    some (formPicMask { s with setting := Function.update s.setting i new })
  else none

def resetIrq (s : State) (i : Line) : State :=
  if (s.setting i).pri = 0 then { s with saved := Function.update s.saved i ⟨0, 0, .none⟩ }
  else
    formPicMask { s with
      saved := Function.update s.saved i (s.setting i)
      setting := Function.update s.setting i ⟨0, 0, .intnull⟩ }

def picIrqMask (s : State) (i : Line) : State :=
  { s with
    forced := Function.update s.forced i true
    picMask := fun level j => s.picMask level j || decide (j = i) }

def picIrqUnmask (s : State) (i : Line) : State :=
  let forced := Function.update s.forced i false
  { s with
    forced := forced
    picMask := fun level j => formMask (fun i => (s.setting i).pri) level j || forced j }

/-- `ds_master_device_intr_register`; `master` tells whether the caller's port is the master
port.  The reference of the message becomes the table's. -/
def intrRegister (s : State) (master : Bool) (irq : ℕ) (notify : Option Port) :
    Option (KernReturn × State) :=
  if !master then some (.invalidArgument, s)
  else if h : irq < 16 then
    match notify with
    | none => some (.invalidArgument, s)
    | some p =>
      if s.active ⟨irq, h⟩ then some (.resourceShortage, s)
      else
        let i : Line := ⟨irq, h⟩
        let s := resetIrq s i
        let s := { s with
          port := Function.update s.port i (some p), active := Function.update s.active i true
          refs := Function.update s.refs p (s.refs p + 1) }
        (takeIrq s i ⟨irq, spl6, .forward⟩).map (KernReturn.success, ·)
  else some (.invalidArgument, s)

def intrUnregister (s : State) (master : Bool) (irq : ℕ) : Option (KernReturn × State) :=
  if !master then some (.invalidArgument, s)
  else if h : irq < 16 then
    let i : Line := ⟨irq, h⟩
    if s.active i then
      (takeIrq s i (s.saved i)).map fun s => (.success, { s with
        port := Function.update s.port i none, active := Function.update s.active i false })
    else some (.invalidArgument, s)
  else some (.invalidArgument, s)

def intrEnable (s : State) (master : Bool) (irq : ℕ) : KernReturn × State :=
  if !master then (.invalidArgument, s)
  else if h : irq < 16 then
    (.success, { picIrqUnmask s ⟨irq, h⟩ with held := Function.update s.held ⟨irq, h⟩ false })
  else (.invalidArgument, s)

def irqForwardHandler (s : State) (i : Line) : State :=
  if s.active i = true ∧ (s.port i).isSome = true then
    { picIrqMask s i with
      pending := Function.update s.pending i ((s.pending i + 1) % 2 ^ 32), waiting := false
      owed := Function.update s.owed i true, held := Function.update s.held i true }
  else s

def interrupt (s : State) (i : Line) : State :=
  if (s.setting i).handler = .forward then irqForwardHandler s i else s

structure SameLine (s s' : State) (i : Line) (p : Option Port) : Prop where
  setting : s'.setting i = s.setting i
  mask : ∀ level, s'.picMask level i = s.picMask level i
  pending : s'.pending i = s.pending i
  refs : ∀ q, p = some q → s'.refs q = s.refs q

def registerUnregister (s : State) (master : Bool) (irq : ℕ) (notify : Option Port)
    (irqs : List Line) : Option State :=
  (intrRegister s master irq notify).bind fun r =>
    (intrUnregister (irqs.foldl interrupt r.2) master irq).map Prod.snd

variable {s s' : State} {i j : Line}

theorem interrupt_frame (s : State) (i j : Line) :
    (interrupt s i).setting = s.setting ∧ (interrupt s i).active = s.active ∧
      (interrupt s i).refs = s.refs ∧ (interrupt s i).port = s.port ∧
      (s.active j = false → (interrupt s i).pending j = s.pending j ∧
        ∀ level, (interrupt s i).picMask level j = s.picMask level j) := by
  unfold interrupt irqForwardHandler picIrqMask
  split
  · split
    · next h =>
      refine ⟨rfl, rfl, rfl, rfl, fun hj => ?_⟩
      have hne : j ≠ i := by
        rintro rfl
        simp [hj] at h
      simp [hne]
    · simp
  · simp

theorem interrupts_frame (irqs : List Line) (s : State) (j : Line) :
    (irqs.foldl interrupt s).setting = s.setting ∧ (irqs.foldl interrupt s).active = s.active ∧
      (irqs.foldl interrupt s).refs = s.refs ∧
      (s.active j = false → (irqs.foldl interrupt s).pending j = s.pending j ∧
        ∀ level, (irqs.foldl interrupt s).picMask level j = s.picMask level j) := by
  induction irqs generalizing s with
  | nil => simp
  | cons i irqs ih =>
    obtain ⟨hset, hact, hrefs, -, hj⟩ := interrupt_frame s i j
    obtain ⟨hset', hact', hrefs', hj'⟩ := ih (interrupt s i)
    refine ⟨hset'.trans hset, hact'.trans hact, hrefs'.trans hrefs, fun hidle => ?_⟩
    obtain ⟨hp, hm⟩ := hj hidle
    obtain ⟨hp', hm'⟩ := hj' (by rw [hact, hidle])
    exact ⟨hp'.trans hp, fun level => (hm' level).trans (hm level)⟩

theorem intrRegister_success {irq : ℕ} (hirq : irq < 16) (hidle : s.active ⟨irq, hirq⟩ = false)
    (p : Port) : ∃ s₁, intrRegister s true irq (some p) = some (.success, s₁) ∧
      s₁.active ⟨irq, hirq⟩ = true ∧ (s₁.setting ⟨irq, hirq⟩).pri = spl6 := by
  have hpri : ((resetIrq s ⟨irq, hirq⟩).setting ⟨irq, hirq⟩).pri = 0 := by
    unfold resetIrq
    split
    · next h => exact h
    · simp [formPicMask]
  have hidle' : (resetIrq s ⟨irq, hirq⟩).active = s.active := by
    unfold resetIrq
    split <;> rfl
  simp [intrRegister, hirq, hidle, takeIrq, hpri, formPicMask, spl6]

theorem not_restored_of_active {irq : ℕ} (hirq : irq < 16) (hactive : s.active ⟨irq, hirq⟩ = true)
    (hpri : (s.setting ⟨irq, hirq⟩).pri ≠ 0) (master : Bool) (notify : Option Port)
    (irqs : List Line) (h : registerUnregister s master irq notify irqs = some s') (p : Port) :
    intrRegister s' true irq (some p) = some (.resourceShortage, s') := by
  obtain ⟨hset, hact, -, -⟩ := interrupts_frame irqs s ⟨irq, hirq⟩
  cases master with
  | false =>
    obtain rfl : irqs.foldl interrupt s = s' := by
      simpa [registerUnregister, intrRegister, intrUnregister] using h
    simp [intrRegister, hirq, hact, hactive]
  | true =>
    cases notify <;>
      simp [registerUnregister, intrRegister, intrUnregister, hirq, hact, hactive, takeIrq, hset,
        hpri] at h

/-- The removal returns, and gives the line back so that the next registration succeeds, exactly if
the line was not registered and the registration was refused for a wrong port.  A registered line has
a priority. -/
theorem unregister_restores_iff (s : State) (master : Bool) (irq : ℕ) (notify : Option Port)
    (irqs : List Line) (hirq : irq < 16)
    (hpri : s.active ⟨irq, hirq⟩ = true → (s.setting ⟨irq, hirq⟩).pri ≠ 0) :
    (∃ s', registerUnregister s master irq notify irqs = some s' ∧
      SameLine s s' ⟨irq, hirq⟩ notify ∧
      ∀ p, ∃ s₁, intrRegister s' true irq (some p) = some (.success, s₁)) ↔
      s.active ⟨irq, hirq⟩ = false ∧ (master = false ∨ notify = none) := by
  by_cases hactive : s.active ⟨irq, hirq⟩ = true
  · refine ⟨fun ⟨s', h, _, hlater⟩ => ?_, fun h => absurd (hactive.symm.trans h.1) (by decide)⟩
    obtain ⟨s₁, h₁⟩ := hlater 0
    rw [not_restored_of_active hirq hactive (hpri hactive) master notify irqs h] at h₁
    cases h₁
  have hidle : s.active ⟨irq, hirq⟩ = false := Bool.eq_false_iff.mpr hactive
  obtain ⟨hset, hact, hrefs, hrest⟩ := interrupts_frame irqs s ⟨irq, hirq⟩
  have hsame : SameLine s (irqs.foldl interrupt s) ⟨irq, hirq⟩ notify ∧
      ∀ p, ∃ s₁, intrRegister (irqs.foldl interrupt s) true irq (some p) = some (.success, s₁) := by
    refine ⟨⟨by rw [hset], (hrest hidle).2, (hrest hidle).1, fun q _ => by rw [hrefs]⟩, fun p => ?_⟩
    obtain ⟨s₁, h₁, -⟩ := intrRegister_success hirq ((congrFun hact _).trans hidle) p
    exact ⟨s₁, h₁⟩
  constructor
  · rintro ⟨s', hs', -⟩
    refine ⟨hidle, ?_⟩
    by_contra hno
    obtain ⟨hm, hn⟩ := not_or.mp hno
    obtain rfl : master = true := by simpa using hm
    obtain ⟨p, rfl⟩ := Option.ne_none_iff_exists'.mp hn
    obtain ⟨s₁, h₁, hactive, hpri⟩ := intrRegister_success (s := s) hirq hidle p
    obtain ⟨hset₁, hact₁, -, -⟩ := interrupts_frame irqs s₁ ⟨irq, hirq⟩
    simp [registerUnregister, h₁, intrUnregister, hirq, hact₁, hactive, takeIrq, hset₁, hpri, spl6]
      at hs'
  · rintro ⟨-, rfl | rfl⟩
    · exact ⟨_, by simp [registerUnregister, intrRegister, intrUnregister], hsame⟩
    · cases master with
      | false => exact ⟨_, by simp [registerUnregister, intrRegister, intrUnregister], hsame⟩
      | true =>
        exact ⟨_, by simp [registerUnregister, intrRegister, intrUnregister, hirq, hact, hidle],
          hsame⟩

/-- The settings of `iunit`, `intpri` and `ivect` when the clock (driver 0) has taken line 0;
driver 1 is `fpintr`. -/
def isaSettings (i : Line) : Setting :=
  if i = 0 then ⟨0, 8, .driver 0⟩
  else if i = 1 then ⟨1, spl6, .intnull⟩
  else if i = 13 then ⟨13, 1, .driver 1⟩
  else ⟨i, 0, .intnull⟩

def boot (setting : Line → Setting) : State where
  setting
  picMask := formMask fun i => (setting i).pri
  forced := fun _ => false
  saved := fun _ => ⟨0, 0, .none⟩
  port := fun _ => none
  active := fun _ => false
  pending := fun _ => 0
  refs := fun _ => 0
  pc := .scan 0 false
  waiting := false
  owed := fun _ => false
  held := fun _ => false

theorem unregister_restores_refused :
    ∃ s', registerUnregister (boot isaSettings) true 1 none [1, 5] = some s' ∧
      SameLine (boot isaSettings) s' 1 none ∧
      ∀ p, ∃ s₁, intrRegister s' true 1 (some p) = some (.success, s₁) :=
  (unregister_restores_iff (boot isaSettings) true 1 none [1, 5] (by decide)
    fun h => absurd h (by decide)).mpr
    ⟨rfl, .inr rfl⟩

/-- The removal of a fresh registration does not return. -/
theorem unregister_never_returns :
    (∃ s, intrRegister (boot isaSettings) true 4 (some 1) = some (.success, s)) ∧
      registerUnregister (boot isaSettings) true 4 (some 1) [] = none :=
  ⟨⟨_, rfl⟩, rfl⟩

end Uros.Device
