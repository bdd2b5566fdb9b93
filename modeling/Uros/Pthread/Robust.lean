import Uros.Pthread.Mutex

/-!
Robust mutexes of libpthreads, whose owner may exit.

The mutex is the one of the module before, with the part of the calls that a robust mutex
adds: a lock call that has found the word taken looks at the owner's descriptor before it
goes on.  `pthread_exit` leaves the signature of the descriptor as it is.  `pthread_create`
takes the descriptor from the pool: it clears all of it, the signature too, and stores the
signature again before the new thread runs.
-/

namespace Uros.Pthread.Robust

open Uros.Foundation

variable {θ : Type} {t : θ}

inductive Outcome where
  | success
  | ownerDead
  | notRecoverable
  deriving DecidableEq

/-- `sig` tells whose descriptor has `_PTHREAD_SIG`, `checking` who still has to look at the
owner.  The threads that have exited, whether one of them held the mutex and nobody was told
since, and the outcomes of the calls, the last one first, are history. -/
structure State (θ : Type) where
  base : Mutex.State θ
  sig : θ → Bool
  checking : θ → Bool
  ownerDead : Bool
  unrecoverable : Bool
  exited : θ → Bool
  abandoned : Bool
  log : List (θ × Outcome)

def init (kind : Mutex.Kind) : State θ :=
  ⟨Mutex.initialised kind, fun _ => true, fun _ => false, false, false, fun _ => false,
    false, []⟩

inductive Act where
  | mutex (a : Mutex.Act)
  | check
  | consistent
  | exit
  | create
  | publish
  deriving DecidableEq

section Steps

variable [DecidableEq θ]

def checked (s : State θ) (t : θ) : State θ :=
  { s with checking := Function.update s.checking t false }

def robustCheck (s : State θ) (t : θ) : State θ :=
  if s.unrecoverable then
    { checked s t with base := s.base.goto t .outside, log := (t, .notRecoverable) :: s.log }
  else if s.base.owner.any fun o => !s.sig o then
    { checked s t with
      base := { s.base with owner := some t, word := 1, held := [t] }.goto t .outside
      ownerDead := true, abandoned := false, log := (t, .ownerDead) :: s.log }
  else checked s t

def locks : Mutex.Act → Bool
  | .start .lock | .start .timedlock => true
  | _ => false

def spoils (s : State θ) (t : θ) (b : Mutex.State θ) : Bool :=
  s.ownerDead && decide (s.base.pc t = .releases ∧ b.pc t = .drops)

def succeeds (s : State θ) (t : θ) (b : Mutex.State θ) : Bool :=
  decide (b.pc t = .adds ∨ s.base.count < b.count)

def advance (s : State θ) (t : θ) (b : Mutex.State θ) : State θ :=
  { s with
    base := b
    checking := Function.update s.checking t
      (decide (s.base.pc t = .cas .lock ∨ s.base.pc t = .cas .timedlock) && decide (b.pc t ≠ .adds))
    unrecoverable := s.unrecoverable || spoils s t b
    ownerDead := s.ownerDead && !spoils s t b
    log := if succeeds s t b then (t, .success) :: s.log else s.log }

def step (s : State θ) (l : θ × Act) : Option (State θ) :=
  if s.exited l.1 then
    match l.2 with
    | .create => if s.sig l.1 then some { s with sig := Function.update s.sig l.1 false } else none
    | .publish =>
        if s.sig l.1 then none
        else some { s with
          sig := Function.update s.sig l.1 true
          exited := Function.update s.exited l.1 false }
    | _ => none
  else
    match l.2 with
    | .mutex a =>
        if s.checking l.1 then none
        else if s.unrecoverable && locks a then
          some { s with log := (l.1, .notRecoverable) :: s.log }
        else (Mutex.step s.base (l.1, a)).map (advance s l.1)
    | .check => if s.checking l.1 then some (robustCheck s l.1) else none
    | .consistent =>
        if s.base.pc l.1 = .outside then
          some { s with ownerDead := s.ownerDead && !decide (s.base.owner = some l.1) }
        else none
    | .exit =>
        if s.base.pc l.1 = .outside then
          some { s with
            exited := Function.update s.exited l.1 true
            abandoned := s.abandoned || decide (l.1 ∈ s.base.held) }
        else none
    | .create | .publish => none

def attempt (kind : Mutex.Kind) (t : θ) : List (θ × Act) :=
  (t, .mutex (.start .lock)) :: (if kind = .normal then [] else [(t, .mutex .go)]) ++
    [(t, .mutex .go), (t, .check)]

def Reports (kind : Mutex.Kind) (s : State θ) (t : θ) : Prop :=
  s.abandoned = true →
    ∃ s', runSteps step s (attempt kind t) = some s' ∧ s'.log.head? = some (t, .ownerDead)

/-- No lock call looks at the owner while `pthread_create` sets up the owner's descriptor. -/
def Unseen (s : State θ) (l : θ × Act) : Prop :=
  l.2 = .check → s.checking l.1 = true → ∀ o ∈ s.base.owner, s.sig o = true

def Told (s : State θ) (t : θ) : Prop :=
  (s.exited t = false ∧ s.checking t = false ∧ s.base.pc t = .outside) ∧
    ∃ o, s.base.owner = some o ∧ s.sig o = false

end Steps

structure Plain (s : State θ) : Prop where
  ownerDead : s.ownerDead = false
  unrecoverable : s.unrecoverable = false
  log : ∀ e ∈ s.log, e.2 = .success

structure Inv (kind : Mutex.Kind) (s : State θ) : Prop extends Plain s where
  ready : Mutex.Ready s.base
  kind : s.base.kind = kind
  exited : ∀ t, s.sig t = false → s.exited t = true

variable [DecidableEq θ] {s s' : State θ}

theorem Plain.advance (h : Plain s) (t : θ) (b : Mutex.State θ) : Plain (advance s t b) := by
  have hspoils : spoils s t b = false := by simp [spoils, h.ownerDead]
  refine ⟨by simp [Robust.advance, h.ownerDead],
    by simp [Robust.advance, h.unrecoverable, hspoils], ?_⟩
  dsimp only [Robust.advance]
  split
  · exact List.forall_mem_cons.mpr ⟨rfl, h.log⟩
  · exact h.log

theorem robustCheck_of_sig (h : Plain s) (hsig : ∀ o, s.base.owner = some o → s.sig o = true) :
    robustCheck s t = checked s t := by
  have hany : s.base.owner.any (fun o => !s.sig o) = false := by
    cases howner : s.base.owner with
    | none => rfl
    | some o => simp [hsig o howner]
  rw [robustCheck, if_neg (by simp [h.unrecoverable]), if_neg (by simp [hany])]

theorem robustCheck_of_not_sig {o : θ} (h : Plain s) (howner : s.base.owner = some o)
    (hsig : s.sig o = false) : (robustCheck s t).log = (t, .ownerDead) :: s.log := by
  rw [robustCheck, if_neg (by simp [h.unrecoverable]), if_pos (by simp [howner, hsig])]

/-- What a step does to the flags and the log, whatever the mutex itself does. -/
theorem Plain.step {l : θ × Act} (h : Plain s) (hl : Unseen s l)
    (hs : Robust.step s l = some s') : Plain s' := by
  obtain ⟨t, a⟩ := l
  unfold Robust.step at hs
  cases a with
  | mutex a =>
    simp only [h.unrecoverable, Bool.false_and, Bool.false_eq_true, if_false,
      Option.ite_none_left_eq_some, Option.map_eq_some_iff] at hs
    obtain ⟨-, -, b, -, rfl⟩ := hs
    exact h.advance t b
  | check =>
    simp only [Option.ite_none_left_eq_some, Option.ite_none_right_eq_some,
      Option.some.injEq] at hs
    obtain ⟨-, hc, rfl⟩ := hs
    rw [robustCheck_of_sig h (hl rfl hc)]
    exact ⟨h.ownerDead, h.unrecoverable, h.log⟩
  | consistent =>
    simp only [Option.ite_none_left_eq_some, Option.ite_none_right_eq_some,
      Option.some.injEq] at hs
    obtain ⟨-, -, rfl⟩ := hs
    exact ⟨by simp [h.ownerDead], h.unrecoverable, h.log⟩
  | exit =>
    simp only [Option.ite_none_left_eq_some, Option.ite_none_right_eq_some,
      Option.some.injEq] at hs
    obtain ⟨-, -, rfl⟩ := hs
    exact ⟨h.ownerDead, h.unrecoverable, h.log⟩
  | create | publish =>
    grind [Plain]

theorem log_suffix_step {l : θ × Act} (hs : step s l = some s') : s.log <:+ s'.log := by
  obtain ⟨t, a⟩ := l
  unfold step at hs
  cases a with
  | mutex a =>
    simp only [Option.ite_none_left_eq_some] at hs
    obtain ⟨-, -, hs⟩ := hs
    split at hs
    · cases hs
      exact List.suffix_cons _ _
    · obtain ⟨b, -, rfl⟩ := Option.map_eq_some_iff.mp hs
      dsimp only [advance]
      split
      · exact List.suffix_cons _ _
      · exact List.suffix_refl _
  | check | consistent | exit | create | publish =>
    unfold robustCheck checked at hs
    grind [List.suffix_cons, List.suffix_refl]

theorem log_suffix_run {ls : List (θ × Act)} (hrun : runSteps step s ls = some s') :
    s.log <:+ s'.log := by
  have hkept (u : State θ) (l : θ × Act) (u' : State θ) (h : s.log <:+ u.log)
      (hs : step u l = some u') : s.log <:+ u'.log := h.trans (log_suffix_step hs)
  have hrun' := runSteps_invariant hkept (List.suffix_refl s.log) hrun
  exact hrun'

/-- A check that falls into the window leaves its answer in the log for good. -/
theorem Plain.log_iff {ls : List (θ × Act)} (h : Plain s)
    (hrun : runSteps Robust.step s ls = some s') :
    (∀ e ∈ s'.log, e.2 = .success) ↔ StepsMeet Robust.step Unseen s ls := by
  refine ⟨fun hlog => ?_, fun hmeet =>
    (runSteps_invariant_of_guard (fun _ _ _ h hl hs => h.step hl hs) h hmeet hrun : Plain s').log⟩
  induction ls generalizing s with
  | nil => trivial
  | cons l ls ih =>
    obtain ⟨s₁, hs, hrest⟩ := runSteps_cons.mp hrun
    have hl : Unseen s l := by
      intro hcheck hc o howner
      by_contra hsig
      have hlog₁ : s₁.log = (l.1, .ownerDead) :: s.log := by
        obtain ⟨t, a⟩ := l
        cases hcheck
        simp only [Robust.step, Option.ite_none_left_eq_some, Option.ite_none_right_eq_some,
          Option.some.injEq] at hs
        obtain ⟨-, -, rfl⟩ := hs
        exact robustCheck_of_not_sig h howner (by simpa using hsig)
      have hin : (l.1, Outcome.ownerDead) ∈ s'.log :=
        (log_suffix_run hrest).subset (by simp [hlog₁])
      cases hlog _ hin
    refine ⟨hl, fun s₂ hs₂ => ?_⟩
    cases hs.symm.trans hs₂
    exact ih (h.step hl hs) hrest

def Orderly (s : State θ) (l : θ × Act) : Prop := Unseen s l ∧ s.base.count < 2 ^ 31 - 1

instance Orderly.decidable (s : State θ) (l : θ × Act) : Decidable (Orderly s l) :=
  inferInstanceAs (Decidable ((l.2 = .check → s.checking l.1 = true →
    ∀ o ∈ s.base.owner, s.sig o = true) ∧ _))

theorem Inv.step {kind : Mutex.Kind} {l : θ × Act} (h : Inv kind s) (hl : Orderly s l)
    (hs : Robust.step s l = some s') : Inv kind s' := by
  have hplain := h.toPlain.step hl.1 hs
  obtain ⟨t, a⟩ := l
  unfold Robust.step at hs
  cases a with
  | mutex a =>
    simp only [h.unrecoverable, Bool.false_and, Bool.false_eq_true, if_false,
      Option.ite_none_left_eq_some, Option.map_eq_some_iff] at hs
    obtain ⟨-, -, b, hb, rfl⟩ := hs
    exact ⟨hplain, h.ready.step hl.2 hb, (h.ready.kind_step hb).trans h.kind, h.exited⟩
  | check =>
    simp only [Option.ite_none_left_eq_some, Option.ite_none_right_eq_some,
      Option.some.injEq] at hs
    obtain ⟨-, hc, rfl⟩ := hs
    rw [robustCheck_of_sig h.toPlain (hl.1 rfl hc)] at hplain ⊢
    exact ⟨hplain, h.ready, h.kind, h.exited⟩
  | consistent =>
    simp only [Option.ite_none_left_eq_some, Option.ite_none_right_eq_some,
      Option.some.injEq] at hs
    obtain ⟨-, -, rfl⟩ := hs
    exact ⟨hplain, h.ready, h.kind, h.exited⟩
  | exit =>
    simp only [Option.ite_none_left_eq_some, Option.ite_none_right_eq_some,
      Option.some.injEq] at hs
    obtain ⟨-, -, rfl⟩ := hs
    refine ⟨hplain, h.ready, h.kind, fun u hu => ?_⟩
    have := h.exited u hu
    dsimp only
    grind [Function.update_apply]
  | create =>
    simp only [Option.ite_none_right_eq_some, Option.some.injEq] at hs
    obtain ⟨he, -, rfl⟩ := hs
    refine ⟨hplain, h.ready, h.kind, fun u hu => ?_⟩
    by_cases hut : u = t
    · exact hut ▸ he
    · exact h.exited u (by simpa [hut] using hu)
  | publish =>
    simp only [Option.ite_none_left_eq_some, Option.ite_none_right_eq_some,
      Option.some.injEq] at hs
    obtain ⟨-, -, rfl⟩ := hs
    refine ⟨hplain, h.ready, h.kind, fun u hu => ?_⟩
    have hut : u ≠ t := fun hut => by simp [hut] at hu
    simpa [hut] using h.exited u (by simpa [hut] using hu)

/-- The thread is in a lock call that has not looked at the owner yet. -/
def calling (s : State θ) (t : θ) (pc : Mutex.Pc) : State θ :=
  { s with base := s.base.goto t pc, checking := Function.update s.checking t false }

/-- The thread has found the word taken and looks at the owner next. -/
def looking (s : State θ) (t : θ) : State θ :=
  { calling s t (if s.base.word = 2 then .waits .lock else .swaps .lock) with
    checking := Function.update s.checking t true }

theorem Plain.looking (h : Plain s) : Plain (looking s t) :=
  ⟨h.ownerDead, h.unrecoverable, h.log⟩

theorem enter_lock {kind : Mutex.Kind} (h : kind ≠ .normal) :
    Mutex.enter kind .lock = .checks .lock := by
  simp [Mutex.enter, h]

theorem step_start {kind : Mutex.Kind} (h : Inv kind s) :
    step s (t, .mutex (.start .lock)) =
      if s.exited t = false ∧ s.checking t = false ∧ s.base.pc t = .outside then
        some (calling s t (Mutex.enter kind .lock)) else none := by
  have henter := Mutex.enter_cases kind .lock
  by_cases ht : s.exited t = false ∧ s.checking t = false ∧ s.base.pc t = .outside
  · obtain ⟨he, hc, hpc⟩ := ht
    simp [step, he, hc, h.unrecoverable, Mutex.step, hpc, h.ready.sig, h.kind, advance, spoils,
      succeeds, h.ownerDead, Mutex.State.goto, henter.2.2.1, calling]
  · rw [if_neg ht]
    unfold step Mutex.step
    grind [h.unrecoverable]

theorem step_checks {kind : Mutex.Kind} (h : Inv kind s) (ht : s.exited t = false)
    (howner : s.base.owner ≠ some t) :
    step (calling s t (.checks .lock)) (t, .mutex .go) = some (calling s t (.cas .lock)) := by
  simp [step, calling, ht, h.unrecoverable, Mutex.step, Mutex.State.goto, howner, advance,
    spoils, succeeds, h.ownerDead]

theorem step_cas {kind : Mutex.Kind} (h : Inv kind s) (ht : s.exited t = false)
    (hword : s.base.word ≠ 0) :
    step (calling s t (.cas .lock)) (t, .mutex .go) = some (looking s t) := by
  by_cases hw : s.base.word = 2 <;>
    simp [step, looking, calling, ht, h.unrecoverable, Mutex.step, Mutex.State.goto, hword, hw,
      advance, spoils, succeeds, h.ownerDead]

theorem step_own {kind : Mutex.Kind} (h : Inv kind s) (howner : s.base.owner = some t)
    (hs : step (calling s t (.checks .lock)) (t, .mutex .go) = some s') :
    step s' (t, .mutex .go) = none := by
  have hpc : s'.base.pc t = .outside := by
    simp only [step, Option.ite_none_left_eq_some, Option.map_eq_some_iff, calling,
      h.unrecoverable, Bool.false_and, Bool.false_eq_true, if_false] at hs
    obtain ⟨-, -, b, hb, rfl⟩ := hs
    simp only [Mutex.step, Mutex.State.goto, Function.update_self, howner, if_true,
      Option.some.injEq] at hb
    subst hb
    dsimp only [advance]
    split <;> simp
  simp [step, Mutex.step, hpc, locks]

theorem step_taken {kind : Mutex.Kind} (h : Inv kind s) (hword : s.base.word = 0)
    (hs : step (calling s t (.cas .lock)) (t, .mutex .go) = some s') :
    step s' (t, .check) = none := by
  have hc : s'.checking t = false := by
    simp only [step, Option.ite_none_left_eq_some, Option.map_eq_some_iff, calling,
      h.unrecoverable, Bool.false_and, Bool.false_eq_true, if_false] at hs
    obtain ⟨-, -, b, hb, rfl⟩ := hs
    simp only [Mutex.step, Mutex.State.goto, Function.update_self, hword, if_true,
      Option.some.injEq] at hb
    subst hb
    simp [advance, Mutex.acquire, Mutex.State.goto]
  simp [step, hc]

theorem step_start_some {kind : Mutex.Kind} (h : Inv kind s) {ls : List (θ × Act)} :
    runSteps step s ((t, .mutex (.start .lock)) :: ls) = some s' ↔
      (s.exited t = false ∧ s.checking t = false ∧ s.base.pc t = .outside) ∧
        runSteps step (calling s t (Mutex.enter kind .lock)) ls = some s' := by
  rw [runSteps_cons, step_start h]
  constructor
  · rintro ⟨s₁, hs₁, hrest⟩
    obtain ⟨hidle, hs₁⟩ := (Option.ite_none_right_eq_some ..).mp hs₁
    cases hs₁
    exact ⟨hidle, hrest⟩
  · exact fun ⟨hidle, hrest⟩ => ⟨_, if_pos hidle, hrest⟩

/-- The lock call by itself gets to the check only if another thread owns the mutex. -/
theorem attempt_check {kind : Mutex.Kind} (h : Inv kind s)
    (hrun : runSteps step s (attempt kind t) = some s') :
    (s.exited t = false ∧ s.checking t = false ∧ s.base.pc t = .outside) ∧
      s' = robustCheck (looking s t) t := by
  rw [attempt, List.cons_append, step_start_some h] at hrun
  obtain ⟨hidle, hrun⟩ := hrun
  refine ⟨hidle, ?_⟩
  have hcas : runSteps step (calling s t (.cas .lock)) [(t, .mutex .go), (t, .check)] =
      some s' := by
    by_cases hk : kind = .normal
    · subst hk
      exact hrun
    · rw [enter_lock hk, if_neg hk, List.singleton_append] at hrun
      obtain ⟨s₂, hs₂, hrest⟩ := runSteps_cons.mp hrun
      by_cases howner : s.base.owner = some t
      · obtain ⟨_, hs₃, -⟩ := runSteps_cons.mp hrest
        simp [step_own h howner hs₂] at hs₃
      · rw [step_checks h hidle.1 howner] at hs₂
        cases hs₂
        exact hrest
  obtain ⟨s₃, hs₃, hrest⟩ := runSteps_cons.mp hcas
  by_cases hword : s.base.word = 0
  · obtain ⟨_, hs₄, -⟩ := runSteps_cons.mp hrest
    simp [step_taken h hword hs₃] at hs₄
  · rw [step_cas h hidle.1 hword] at hs₃
    cases hs₃
    simpa [runSteps, step, looking, calling, hidle.1, eq_comm] using hrest

theorem attempt_run {kind : Mutex.Kind} (h : Inv kind s) (ht : Told s t) :
    ∃ s', runSteps step s (attempt kind t) = some s' := by
  obtain ⟨hidle, o, howner, hsig⟩ := ht
  have hne : s.base.owner ≠ some t := by
    intro heq
    rw [← Option.some.inj (howner.symm.trans heq), h.exited o hsig] at hidle
    simp at hidle
  have hword : s.base.word ≠ 0 := fun hw => by
    have := h.ready.owner o howner
    simp [h.ready.free hw, List.replicate_succ] at this
  have hcheck : step (looking s t) (t, .check) = some (robustCheck (looking s t) t) := by
    simp [step, looking, calling, hidle.1]
  have hs' : runSteps step (calling s t (.cas .lock)) [(t, .mutex .go), (t, .check)] =
      some (robustCheck (looking s t) t) :=
    runSteps_cons.mpr ⟨_, step_cas h hidle.1 hword, runSteps_cons.mpr ⟨_, hcheck, rfl⟩⟩
  refine ⟨robustCheck (looking s t) t, ?_⟩
  rw [attempt, List.cons_append, step_start_some h]
  refine ⟨hidle, ?_⟩
  by_cases hk : kind = .normal
  · subst hk
    exact hs'
  · rw [enter_lock hk, if_neg hk, List.singleton_append, runSteps_cons]
    exact ⟨_, step_checks h hidle.1 hne, hs'⟩

theorem Inv.reports_iff {kind : Mutex.Kind} (h : Inv kind s) :
    Reports kind s t ↔ (s.abandoned = true → Told s t) := by
  refine forall_congr' fun _ => ⟨?_, fun ht => ?_⟩
  · rintro ⟨s', hrun, hhead⟩
    obtain ⟨hidle, rfl⟩ := attempt_check h hrun
    refine ⟨hidle, ?_⟩
    by_contra hno
    have hsig : ∀ o, s.base.owner = some o → s.sig o = true := by simpa using hno
    rw [robustCheck_of_sig h.toPlain.looking hsig] at hhead
    have hin : (t, Outcome.ownerDead) ∈ s.log := List.mem_of_mem_head? hhead
    cases h.log _ hin
  · obtain ⟨s', hrun⟩ := attempt_run h ht
    refine ⟨s', hrun, ?_⟩
    obtain ⟨-, o, howner, hsig⟩ := ht
    obtain ⟨-, rfl⟩ := attempt_check h hrun
    rw [robustCheck_of_not_sig h.toPlain.looking howner hsig]
    rfl

def lockRun (t : θ) : List (θ × Act) :=
  [(t, .mutex (.start .lock)), (t, .mutex .go), (t, .mutex .go)]

def abandonedRun (t : θ) : List (θ × Act) := lockRun t ++ [(t, .exit), (t, .create)]

end Uros.Pthread.Robust
