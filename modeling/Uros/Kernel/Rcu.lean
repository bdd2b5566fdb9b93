import Mathlib.Data.Fin.Basic
import Mathlib.Data.UInt
import Mathlib.Logic.Function.Basic
import Uros.Foundation.SignedInt
import Uros.Foundation.Transition

/-!
Grace periods of the kernel's quiescent-state RCU (`kern/rcu.c`, `kern/rcu.h`).

Every CPU has a depth of read sections, a counter of quiescent states and an idle flag.  A call
of `urmach_synchronize_rcu` reads the counters one after the other and then waits for one CPU
after the other; each access to the data of another CPU is a step.  Interrupts may come between
any two steps, so sections may also be entered on a CPU that is in such a call or idle.
-/

namespace Uros.Kernel.Rcu

open Uros.Foundation

inductive Look where
  | running
  | idle
  | seq
  | report
  deriving DecidableEq

inductive Phase where
  | snaps (c : ℕ)
  | looks (c : ℕ) (l : Look)
  deriving DecidableEq

/-- A call of `urmach_synchronize_rcu`; `seen` is the section that was open on a CPU when its
counter was read. -/
structure Call (n : ℕ) where
  phase : Phase
  snap : Fin n → UInt32
  seen : Fin n → Option ℕ

structure Cpu (n : ℕ) where
  depth : ℤ
  seq : UInt32
  idle : Bool
  running : Bool
  call : Option (Call n)
  ended : ℕ

abbrev State (n : ℕ) := Fin n → Cpu n

inductive Act where
  | readLock
  | readUnlock
  | tick
  | dispatch
  | idleEnter
  | idleExit
  | clear
  | start
  | stop
  | synchronize
  | go
  deriving DecidableEq

variable {n : ℕ}

def quiescentState (x : Cpu n) : Cpu n := if x.depth = 0 then { x with seq := x.seq + 1 } else x

def advance (s : State n) (me : Fin n) (call : Call n) : Cpu n :=
  let goTo (phase : Phase) : Cpu n := { s me with call := some { call with phase } }
  match call.phase with
  | .snaps c =>
    if h : c < n then
      let x := s ⟨c, h⟩
      { s me with
        call := some
          { phase := .snaps (c + 1)
            snap := Function.update call.snap ⟨c, h⟩ x.seq
            seen := Function.update call.seen ⟨c, h⟩
              (if 0 < x.depth then some x.ended else none) } }
    else goTo (.looks 0 .running)
  | .looks c l =>
    if h : c < n then
      let x := s ⟨c, h⟩
      if c = me.val then goTo (.looks (c + 1) .running)
      else
        match l with
        | .running => if x.running then goTo (.looks c .idle) else goTo (.looks (c + 1) .running)
        | .idle => if x.idle then goTo (.looks (c + 1) .running) else goTo (.looks c .seq)
        | .seq =>
          if x.seq = call.snap ⟨c, h⟩ then goTo (.looks c .report) else
            goTo (.looks (c + 1) .running)
        | .report => quiescentState (goTo (.looks c .running))
    else { s me with call := none }

def step (s : State n) : Fin n × Act → Option (State n)
  | (c, a) =>
    let x := s c
    let set (y : Cpu n) : Option (State n) := some (Function.update s c y)
    match a with
    | .readLock => if x.running then set { x with depth := toInt32 (x.depth + 1) } else none
    | .readUnlock =>
      if x.depth = 0 then none
      else set { x with
        depth := toInt32 (x.depth - 1), ended := if x.depth = 1 then x.ended + 1 else x.ended }
    | .tick => if x.running then set (quiescentState x) else none
    | .dispatch =>
      if x.running ∧ x.depth = 0 ∧ x.call.isNone then set (quiescentState x) else none
    | .idleEnter =>
      if x.running ∧ x.depth = 0 ∧ x.call.isNone then set { x with idle := true } else none
    | .idleExit => if x.running ∧ x.depth = 0 then set { x with idle := false } else none
    | .clear => if x.running then none else set { x with depth := 0, seq := 0, idle := false }
    | .start => if x.running then none else set { x with running := true }
    | .stop =>
      if x.running ∧ x.depth = 0 ∧ x.call.isNone then set { x with running := false } else none
    | .synchronize =>
      if x.running ∧ x.depth = 0 ∧ x.call.isNone then
        set { x with call := some ⟨.snaps 0, fun _ => 0, fun _ => none⟩ }
      else none
    | .go =>
      match x.call with
      | some call => if x.depth = 0 then set (advance s c call) else none
      | none => none

def boot : State n := fun _ => ⟨0, 0, false, false, none, 0⟩

structure Open (x : Cpu n) (k : ℕ) (snap : UInt32) : Prop where
  depth : 0 < x.depth
  ended : x.ended = k
  seq : x.seq = snap

def Call.Before (call : Call n) (c : Fin n) : Prop :=
  match call.phase with
  | .snaps _ => True
  | .looks c' _ => c' ≤ c.val

def Call.Fits (call : Call n) (s : State n) (me : Fin n) : Prop :=
  ∀ c, c ≠ me → ∀ k, call.seen c = some k →
    k < (s c).ended ∨ call.Before c ∧ Open (s c) k (call.snap c)

structure Inv (s : State n) : Prop where
  range : ∀ c, 0 ≤ (s c).depth ∧ (s c).depth < 2 ^ 31
  awake : ∀ c, 0 < (s c).depth → (s c).running = true ∧ (s c).idle = false
  calls : ∀ me call, (s me).call = some call → call.Fits s me

structure Evolves (x y : Cpu n) : Prop where
  ended : x.ended ≤ y.ended
  opens : ∀ k snap, Open x k snap → k < y.ended ∨ Open y k snap

/-- A read section is not entered on an idle CPU, nor inside 2³¹ - 1 others. -/
def Proper (s : State n) (l : Fin n × Act) : Prop :=
  l.2 = .readLock → (s l.1).idle = false ∧ (s l.1).depth < 2 ^ 31 - 1

instance decidableProper (s : State n) (l : Fin n × Act) : Decidable (Proper s l) :=
  inferInstanceAs (Decidable (_ → _))

variable {s s' : State n} {c me : Fin n} {x y : Cpu n} {call : Call n}

theorem Evolves.refl (hd : y.depth = x.depth) (he : y.ended = x.ended) (hs : y.seq = x.seq) :
    Evolves x y := by
  refine ⟨he.ge, fun k snap h => .inr ⟨?_, he.trans h.ended, hs.trans h.seq⟩⟩
  rw [hd]
  exact h.depth

theorem Evolves.outside (hd : x.depth = 0) (he : y.ended = x.ended) : Evolves x y :=
  ⟨he.ge, fun _ _ h => absurd h.depth (by omega)⟩

theorem evolves_quiescentState (x : Cpu n) : Evolves x (quiescentState x) := by
  unfold quiescentState
  split
  · next h => exact .outside h rfl
  · exact .refl rfl rfl rfl

theorem Call.Fits.update (h : call.Fits s me) (hev : Evolves (s c) y) :
    call.Fits (Function.update s c y) me := by
  intro c' hne k hk
  by_cases heq : c' = c
  · subst heq
    rw [Function.update_self]
    rcases h c' hne k hk with hlt | ⟨hb, ho⟩
    · exact .inl (Nat.lt_of_lt_of_le hlt hev.ended)
    · exact (hev.opens k _ ho).imp id fun ho => ⟨hb, ho⟩
  · rw [Function.update_of_ne heq]
    exact h c' hne k hk

theorem Inv.move (h : Inv s) (hev : Evolves (s c) y) (hrange : 0 ≤ y.depth ∧ y.depth < 2 ^ 31)
    (hawake : 0 < y.depth → y.running = true ∧ y.idle = false)
    (hcall : ∀ call, y.call = some call → call.Fits (Function.update s c y) c) :
    Inv (Function.update s c y) := by
  refine ⟨fun c' => ?_, ?_, ?_⟩
  · by_cases heq : c' = c
    · subst heq
      rw [Function.update_self]
      exact hrange
    · rw [Function.update_of_ne heq]
      exact h.range c'
  · intro c'
    by_cases heq : c' = c
    · subst heq
      rw [Function.update_self]
      exact hawake
    · rw [Function.update_of_ne heq]
      exact h.awake c'
  · intro me call
    by_cases heq : me = c
    · subst heq
      rw [Function.update_self]
      exact hcall call
    · rw [Function.update_of_ne heq]
      exact fun hcall' => (h.calls me call hcall').update hev

theorem Inv.keep (h : Inv s) (hev : Evolves (s c) y) (hrange : 0 ≤ y.depth ∧ y.depth < 2 ^ 31)
    (hawake : 0 < y.depth → y.running = true ∧ y.idle = false) (hcall : y.call = (s c).call) :
    Inv (Function.update s c y) :=
  h.move hev hrange hawake fun call hc => (h.calls c call (hcall ▸ hc)).update hev

theorem Call.Fits.next {c : ℕ} {l : Look} (h : call.Fits s me) (hp : call.phase = .looks c l)
    (hdone : ∀ hc : c < n, ⟨c, hc⟩ ≠ me → ∀ k, ¬Open (s ⟨c, hc⟩) k (call.snap ⟨c, hc⟩)) :
    Call.Fits { call with phase := .looks (c + 1) .running } s me := by
  intro c' hne k hk
  refine (h c' hne k hk).imp id ?_
  rintro ⟨hb, ho⟩
  refine ⟨?_, ho⟩
  unfold Call.Before at hb
  rw [hp] at hb
  refine Nat.lt_of_le_of_ne hb fun heq => ?_
  subst heq
  exact hdone c'.isLt hne k ho

theorem Call.Fits.stay {c : ℕ} {l l' : Look} (h : call.Fits s me) (hp : call.phase = .looks c l) :
    Call.Fits { call with phase := .looks c l' } s me := by
  intro c' hne k hk
  refine (h c' hne k hk).imp id (And.imp_left fun hb => ?_)
  unfold Call.Before at hb
  rw [hp] at hb
  exact hb

theorem Call.Fits.snap {c : ℕ} (h : call.Fits s me) (hc : c < n) :
    Call.Fits ⟨.snaps (c + 1), Function.update call.snap ⟨c, hc⟩ (s ⟨c, hc⟩).seq,
      Function.update call.seen ⟨c, hc⟩ (if 0 < (s ⟨c, hc⟩).depth then some (s ⟨c, hc⟩).ended
        else none)⟩ s me := by
  intro c' hne k hk
  by_cases heq : c' = ⟨c, hc⟩
  · subst heq
    dsimp only at hk ⊢
    rw [Function.update_self] at hk ⊢
    simp only [Option.ite_none_right_eq_some, Option.some.injEq] at hk
    exact .inr ⟨trivial, hk.1, hk.2, rfl⟩
  · dsimp only at hk ⊢
    rw [Function.update_of_ne heq] at hk ⊢
    exact (h c' hne k hk).imp id fun ho => ⟨trivial, ho.2⟩

theorem Call.Fits.advance (h : call.Fits s me) (hi : Inv s) {call' : Call n}
    (hcall' : (advance s me call).call = some call') : call'.Fits s me := by
  unfold Rcu.advance at hcall'
  dsimp only at hcall'
  split at hcall'
  · next c _ =>
    split at hcall'
    · next hc =>
      cases hcall'
      exact h.snap hc
    · cases hcall'
      intro c' hne k hk
      exact (h c' hne k hk).imp id fun ho => ⟨Nat.zero_le _, ho.2⟩
  · next c l hp =>
    split at hcall'
    · next hc =>
      split at hcall'
      · next hme =>
        cases hcall'
        exact h.next hp fun _ hne => absurd (Fin.ext hme) hne
      · cases l with
        | running =>
          dsimp only at hcall'
          split at hcall'
          · cases hcall'
            exact h.stay hp
          · next hrun =>
            cases hcall'
            exact h.next hp fun _ _ k ho => hrun (hi.awake _ ho.depth).1
        | idle =>
          dsimp only at hcall'
          split at hcall'
          · next hidle =>
            cases hcall'
            refine h.next hp fun _ _ k ho => ?_
            rw [(hi.awake _ ho.depth).2] at hidle
            cases hidle
          · cases hcall'
            exact h.stay hp
        | seq =>
          dsimp only at hcall'
          split at hcall'
          · cases hcall'
            exact h.stay hp
          · next hseq =>
            cases hcall'
            exact h.next hp fun _ _ k ho => hseq ho.seq
        | report =>
          have hkeep : ∀ y : Cpu n, (quiescentState y).call = y.call := by
            intro y
            unfold quiescentState
            split <;> rfl
          dsimp only at hcall'
          rw [hkeep] at hcall'
          cases hcall'
          exact h.stay hp
    · cases hcall'

theorem depth_advance : (advance s me call).depth = (s me).depth ∧
    (advance s me call).ended = (s me).ended := by
  have hq : ∀ y : Cpu n, (quiescentState y).depth = y.depth ∧
      (quiescentState y).ended = y.ended := by
    intro y
    unfold quiescentState
    split <;> exact ⟨rfl, rfl⟩
  unfold advance
  dsimp only
  split
  · split <;> exact ⟨rfl, rfl⟩
  · split
    · split
      · exact ⟨rfl, rfl⟩
      · split
        · split <;> exact ⟨rfl, rfl⟩
        · split <;> exact ⟨rfl, rfl⟩
        · split <;> exact ⟨rfl, rfl⟩
        · exact hq _
    · exact ⟨rfl, rfl⟩

theorem Inv.go (h : Inv s) (hcall : (s c).call = some call) (hd : (s c).depth = 0) :
    Inv (Function.update s c (advance s c call)) := by
  have hev : Evolves (s c) (advance s c call) := .outside hd depth_advance.2
  refine h.move hev (depth_advance.1 ▸ h.range c) (fun hpos => ?_) fun call' hcall' => ?_
  · rw [depth_advance.1, hd] at hpos
    exact absurd hpos (lt_irrefl 0)
  · exact ((h.calls c call hcall).advance h hcall').update hev

theorem Inv.step (h : Inv s) {l : Fin n × Act} (hproper : Proper s l)
    (hstep : step s l = some s') : Inv s' := by
  obtain ⟨c, a⟩ := l
  have hawake := h.awake c
  have hrange := h.range c
  cases a <;> simp only [Rcu.step, Option.ite_none_right_eq_some, Option.ite_none_left_eq_some,
    Option.some.injEq] at hstep
  case readLock =>
    obtain ⟨hrun, rfl⟩ := hstep
    obtain ⟨hidle, hlt⟩ : (s c).idle = false ∧ (s c).depth < 2 ^ 31 - 1 := hproper rfl
    rw [toInt32_of_range (by omega) (by omega)]
    refine h.keep ⟨Nat.le_refl _, fun k snap ho => .inr ⟨?_, ho.ended, ho.seq⟩⟩ ?_
      (fun _ => ⟨hrun, hidle⟩) rfl <;> dsimp only <;> omega
  case readUnlock =>
    obtain ⟨hpos, rfl⟩ := hstep
    rw [toInt32_of_range (by omega) (by omega)]
    refine h.keep ⟨?_, fun k snap ho => ?_⟩ (by dsimp only; omega) (fun _ => hawake (by omega)) rfl
    · dsimp only
      split <;> omega
    · by_cases hone : (s c).depth = 1
      · have := ho.ended
        exact .inl (by simp only [if_pos hone]; omega)
      · have := ho.depth
        exact .inr ⟨by dsimp only; omega, by simp only [if_neg hone]; exact ho.ended, ho.seq⟩
  case tick =>
    obtain ⟨hrun, rfl⟩ := hstep
    refine h.keep (evolves_quiescentState _) ?_ ?_ ?_ <;> unfold quiescentState <;> split
    · exact hrange
    · exact hrange
    · exact hawake
    · exact hawake
    · rfl
    · rfl
  case dispatch =>
    obtain ⟨-, rfl⟩ := hstep
    refine h.keep (evolves_quiescentState _) ?_ ?_ ?_ <;> unfold quiescentState <;> split
    · exact hrange
    · exact hrange
    · exact hawake
    · exact hawake
    · rfl
    · rfl
  case idleEnter =>
    obtain ⟨⟨-, hd, -⟩, rfl⟩ := hstep
    exact h.keep (.outside hd rfl) hrange (fun hpos => absurd hpos (by dsimp only; omega)) rfl
  case idleExit =>
    obtain ⟨⟨-, hd⟩, rfl⟩ := hstep
    exact h.keep (.outside hd rfl) hrange (fun hpos => absurd hpos (by dsimp only; omega)) rfl
  case clear =>
    obtain ⟨hrun, rfl⟩ := hstep
    have hd : (s c).depth = 0 := by
      by_contra hne
      exact hrun (hawake (by omega)).1
    exact h.keep (.outside hd rfl) (by simp) (fun hpos => absurd hpos (lt_irrefl 0)) rfl
  case start =>
    obtain ⟨-, rfl⟩ := hstep
    exact h.keep (.refl rfl rfl rfl) hrange (fun hpos => ⟨rfl, (hawake hpos).2⟩) rfl
  case stop =>
    obtain ⟨⟨-, hd, -⟩, rfl⟩ := hstep
    exact h.keep (.outside hd rfl) hrange (fun hpos => absurd hpos (by dsimp only; omega)) rfl
  case synchronize =>
    obtain ⟨-, rfl⟩ := hstep
    refine h.move (.refl rfl rfl rfl) hrange hawake ?_
    rintro call ⟨⟩ c' - k ⟨⟩
  case go =>
    split at hstep
    · next call hcall =>
      simp only [Option.ite_none_right_eq_some, Option.some.injEq] at hstep
      obtain ⟨hd, rfl⟩ := hstep
      exact h.go hcall hd
    · cases hstep

theorem inv_boot : Inv (boot : State n) :=
  ⟨fun _ => by simp [boot], fun _ hpos => absurd hpos (lt_irrefl 0), by rintro _ _ ⟨⟩⟩

def goes (c : Fin n) (k : ℕ) : List (Fin n × Act) := List.replicate k (c, .go)

def place (s : State n) (c : Fin n) (call : Call n) (phase : Phase) : State n :=
  Function.update s c { s c with call := some { call with phase } }

theorem place_self (hcall : (s c).call = some call) : place s c call call.phase = s := by
  unfold place
  rw [← hcall]
  exact Function.update_eq_self c s

theorem place_go (hd : (s c).depth = 0) {p q : Phase}
    (h : advance (place s c call p) c { call with phase := p } =
      { s c with call := some { call with phase := q } }) :
    step (place s c call p) (c, .go) = some (place s c call q) := by
  have hself : place s c call p c = { s c with call := some { call with phase := p } } :=
    Function.update_self _ _ _
  simp only [step, hself, h, if_pos hd]
  unfold place
  rw [Function.update_idem]

theorem advance_looks (call : Call n) {b : Fin n} (hne : b ≠ c) (l : Look) (q : Phase)
    (h : match l with
      | .running => q = if (s b).running then .looks b .idle else .looks (b + 1) .running
      | .idle => q = if (s b).idle then .looks (b + 1) .running else .looks b .seq
      | .seq => q = if (s b).seq = call.snap b then .looks b .report else .looks (b + 1) .running
      | .report => False) :
    advance (place s c call (.looks b l)) c { call with phase := .looks b l } =
      { s c with call := some { call with phase := q } } := by
  have hval : b.val ≠ c.val := fun h => hne (Fin.ext h)
  have hself : place s c call (.looks b l) c =
      { s c with call := some { call with phase := .looks b l } } := Function.update_self _ _ _
  have hb : place s c call (.looks b l) b = s b := Function.update_of_ne hne _ _
  cases l with
  | running =>
    subst h
    simp only [advance, b.isLt, dif_pos, if_neg hval, hself, hb]
    split <;> rfl
  | idle =>
    subst h
    simp only [advance, b.isLt, dif_pos, if_neg hval, hself, hb]
    split <;> rfl
  | seq =>
    subst h
    simp only [advance, b.isLt, dif_pos, if_neg hval, hself, hb]
    split <;> rfl
  | report => exact h.elim

theorem leaves (call : Call n) (hd : (s c).depth = 0) {b : Fin n} (hne : b ≠ c)
    (hseq : (s b).seq ≠ call.snap b) :
    ∃ k, runSteps step (place s c call (.looks b .running)) (goes c k) =
      some (place s c call (.looks (b + 1) .running)) := by
  by_cases hrun : (s b).running = true
  · have h₁ := place_go hd (advance_looks call hne .running (.looks b .idle) (by simp [hrun]))
    by_cases hidle : (s b).idle = true
    · have h₂ := place_go hd
        (advance_looks call hne .idle (.looks (b + 1) .running) (by simp [hidle]))
      exact ⟨2, runSteps_cons.mpr ⟨_, h₁, runSteps_cons.mpr ⟨_, h₂, rfl⟩⟩⟩
    · have h₂ := place_go hd
        (advance_looks call hne .idle (.looks b .seq) (by simp [hidle]))
      have h₃ := place_go hd
        (advance_looks call hne .seq (.looks (b + 1) .running) (by simp [hseq]))
      exact ⟨3, runSteps_cons.mpr ⟨_, h₁, runSteps_cons.mpr ⟨_, h₂,
        runSteps_cons.mpr ⟨_, h₃, rfl⟩⟩⟩⟩
  · have h₁ := place_go hd
      (advance_looks call hne .running (.looks (b + 1) .running) (by simp [hrun]))
    exact ⟨1, runSteps_cons.mpr ⟨_, h₁, rfl⟩⟩

def Look.rank : Look → ℕ
  | .running => 0
  | .idle => 1
  | .seq => 2
  | .report => 3

theorem look_nearer (call : Call n) (hd : (s c).depth = 0) {b : ℕ} (hb : b < n) {l : Look}
    (hl : b = c.val ∨ l ≠ .report) :
    ∃ b' l', 4 * (n - b') - l'.rank < 4 * (n - b) - l.rank ∧
      step (place s c call (.looks b l)) (c, .go) = some (place s c call (.looks b' l')) := by
  by_cases hme : b = c.val
  · refine ⟨b + 1, .running, ?_, place_go hd ?_⟩
    · cases l <;> simp only [Look.rank] <;> omega
    · simp only [advance, hb, dif_pos, if_pos hme, place, Function.update_self]
  · have hne : (⟨b, hb⟩ : Fin n) ≠ c := fun h => hme (congrArg Fin.val h)
    cases l with
    | running =>
      by_cases h : (s ⟨b, hb⟩).running = true
      · exact ⟨b, .idle, by simp only [Look.rank]; omega,
          place_go hd (advance_looks call hne .running _ (by simp [h]))⟩
      · exact ⟨b + 1, .running, by simp only [Look.rank]; omega,
          place_go hd (advance_looks call hne .running _ (by simp [h]))⟩
    | idle =>
      by_cases h : (s ⟨b, hb⟩).idle = true
      · exact ⟨b + 1, .running, by simp only [Look.rank]; omega,
          place_go hd (advance_looks call hne .idle _ (by simp [h]))⟩
      · exact ⟨b, .seq, by simp only [Look.rank]; omega,
          place_go hd (advance_looks call hne .idle _ (by simp [h]))⟩
    | seq =>
      by_cases h : (s ⟨b, hb⟩).seq = call.snap ⟨b, hb⟩
      · exact ⟨b, .report, by simp only [Look.rank]; omega,
          place_go hd (advance_looks call hne .seq _ (by simp [h]))⟩
      · exact ⟨b + 1, .running, by simp only [Look.rank]; omega,
          place_go hd (advance_looks call hne .seq _ (by simp [h]))⟩
    | report => exact absurd rfl (hl.resolve_left hme)

theorem reports_or_returns (call : Call n) (hd : (s c).depth = 0) (b : ℕ) (l : Look) :
    ∃ k s', runSteps step (place s c call (.looks b l)) (goes c k) = some s' ∧
      (∀ x, x ≠ c → s' x = s x) ∧ ((s' c).call = none ∨ (s' c).seq = (s c).seq + 1) := by
  induction h : 4 * (n - b) - l.rank using Nat.strong_induction_on generalizing b l with
  | _ m ih =>
  have hself : place s c call (.looks b l) c =
      { s c with call := some { call with phase := .looks b l } } := Function.update_self _ _ _
  have hrest : ∀ x, x ≠ c → place s c call (.looks b l) x = s x :=
    fun x hx => Function.update_of_ne hx _ _
  by_cases hb : b < n
  · by_cases hl : b = c.val ∨ l ≠ .report
    · obtain ⟨b', l', hlt, hstep⟩ := look_nearer call hd hb hl
      obtain ⟨k, s', hrun, hs'⟩ := ih _ (h ▸ hlt) b' l' rfl
      exact ⟨k + 1, s', runSteps_cons.mpr ⟨_, hstep, hrun⟩, hs'⟩
    · -- the report itself
      obtain ⟨hme, hrep⟩ := not_or.mp hl
      obtain rfl : l = .report := not_not.mp hrep
      refine ⟨1, Function.update (place s c call (.looks b .report)) c
        { s c with seq := (s c).seq + 1, call := some { call with phase := .looks b .running } },
        ?_, ?_, .inr ?_⟩
      · refine runSteps_cons.mpr ⟨_, ?_, rfl⟩
        simp only [step, hself, if_pos hd]
        simp only [advance, hb, dif_pos, if_neg hme, quiescentState, hself, if_pos hd]
      · intro x hx
        rw [Function.update_of_ne hx]
        exact hrest x hx
      · rw [Function.update_self]
  · refine ⟨1, Function.update (place s c call (.looks b l)) c { s c with call := none },
      ?_, ?_, .inl ?_⟩
    · refine runSteps_cons.mpr ⟨_, ?_, rfl⟩
      simp only [step, hself, if_pos hd]
      simp only [advance, hb, dif_neg, not_false_eq_true, hself]
    · intro x hx
      rw [Function.update_of_ne hx]
      exact hrest x hx
    · rw [Function.update_self]

theorem calls_go_on {a b : Fin n} {ca cb : Call n} (hne : b ≠ a) (hda : (s a).depth = 0)
    (hdb : (s b).depth = 0) (hca : (s a).call = some ca) (hcb : (s b).call = some cb)
    (hpa : ca.phase = .looks b .running) {c : ℕ} {l : Look} (hpb : cb.phase = .looks c l) :
    ∃ kb ka s', runSteps step s (goes b kb ++ goes a ka) = some s' ∧
      (s' a = { s a with call := some { ca with phase := .looks (b + 1) .running } } ∨
        (s' b).call = none) := by
  by_cases hseq : (s b).seq = ca.snap b
  · have hs : s = place s b cb (.looks c l) := by rw [← hpb, place_self hcb]
    obtain ⟨kb, s₁, hrun, hrest, hnone | hrep⟩ := reports_or_returns cb hdb c l
    · refine ⟨kb, 0, s₁, ?_, .inr hnone⟩
      rw [hs]
      exact runSteps_append.mpr ⟨s₁, hrun, rfl⟩
    · have ha₁ : s₁ a = s a := hrest a hne.symm
      have hs₁ : s₁ = place s₁ a ca (.looks b .running) := by
        rw [← hpa, place_self (ha₁ ▸ hca)]
      have hdiff : (s₁ b).seq ≠ ca.snap b := by
        rw [hrep, ← hseq]
        exact fun h => absurd (UInt32.add_eq_left.mp h) (by decide)
      obtain ⟨ka, hrun'⟩ := leaves ca (by rw [ha₁]; exact hda) hne hdiff
      rw [← hs₁] at hrun'
      refine ⟨kb, ka, place s₁ a ca (.looks (b + 1) .running), ?_, .inl ?_⟩
      · rw [hs]
        exact runSteps_append.mpr ⟨s₁, hrun, hrun'⟩
      · unfold place
        rw [Function.update_self, ha₁]
  · obtain ⟨ka, hrun⟩ := leaves ca hda hne hseq
    rw [← hpa, place_self hca] at hrun
    refine ⟨0, ka, place s a ca (.looks (b + 1) .running), hrun, .inl ?_⟩
    unfold place
    rw [Function.update_self]

variable {b : Fin n} {a : Act}

/-- How many steps a call has before it at most, if nothing is to be waited for. -/
def Call.left (call : Call n) : ℕ :=
  match call.phase with
  | .snaps c => n - c + 4 * n + 2
  | .looks c l => 4 * (n - c) - l.rank + 1

theorem Call.left_le (call : Call n) : call.left ≤ 5 * n + 2 := by
  unfold Call.left
  split <;> omega

theorem step_update (h : step s (c, a) = some s') :
    ∃ y, s' = Function.update s c y ∧ (a ≠ .go → (s c).call.isSome = true → y.call = (s c).call) := by
  have hquiet (x : Cpu n) : (quiescentState x).call = x.call := by
    unfold quiescentState
    split <;> rfl
  cases a <;> simp only [step] at h
  case go =>
    split at h
    · split at h
      · cases h
        exact ⟨_, rfl, fun hne => absurd rfl hne⟩
      · cases h
    · cases h
  case synchronize =>
    split at h
    · next hfree =>
      cases h
      refine ⟨_, rfl, fun _ hsome => ?_⟩
      rw [Option.isNone_iff_eq_none.mp hfree.2.2] at hsome
      cases hsome
    · cases h
  all_goals
    split at h
    all_goals cases h
    exact ⟨_, rfl, fun _ _ => by first | rfl | exact hquiet _⟩

theorem go_nearer (h : step s (c, .go) = some s') (hcall : (s c).call = some call) :
    (s' c).call = none ∨ (s' c).seq ≠ (s c).seq ∨
      ∃ call', (s' c).call = some call' ∧ call'.left < call.left := by
  simp only [step, hcall] at h
  split at h
  · next hd =>
    cases h
    rw [Function.update_self]
    have hnext (phase : Phase) (hlt : Call.left { call with phase } < call.left) :
        ∃ call', some { call with phase } = some call' ∧ call'.left < call.left := ⟨_, rfl, hlt⟩
    unfold advance
    cases hp : call.phase with
    | snaps k =>
      dsimp only
      split
      · refine .inr (.inr ⟨_, rfl, ?_⟩)
        simp only [Call.left, hp]
        omega
      · refine .inr (.inr (hnext _ ?_))
        simp only [Call.left, hp, Look.rank]
        omega
    | looks k l =>
      dsimp only
      split
      · split
        · refine .inr (.inr (hnext _ ?_))
          cases l <;> simp only [Call.left, hp, Look.rank] <;> omega
        · cases l with
          | report =>
            refine .inr (.inl ?_)
            simp [quiescentState, hd]
          | _ =>
            dsimp only
            split <;> refine .inr (.inr (hnext _ ?_)) <;>
              simp only [Call.left, hp, Look.rank] <;> omega
      · exact .inl rfl
  · cases h

/-- In every schedule a call that gets enough steps returns or reports for its CPU. -/
theorem reports_in_time {labels : List (Fin n × Act)} (hrun : runSteps step s labels = some s')
    (hcall : (s b).call = some call) (hmany : call.left < labels.count (b, .go)) :
    ∃ pre s₁, pre <+: labels ∧ runSteps step s pre = some s₁ ∧
      ((s₁ b).call = none ∨ (s₁ b).seq ≠ (s b).seq) := by
  induction labels generalizing s call with
  | nil => simp at hmany
  | cons l labels ih =>
    obtain ⟨c, a⟩ := l
    obtain ⟨s₁, hstep, hrest⟩ := runSteps_cons.mp hrun
    have hone : runSteps step s [(c, a)] = some s₁ := runSteps_cons.mpr ⟨s₁, hstep, rfl⟩
    -- what is left of the call after the step decides
    have hgo (call' : Call n) (hcall' : (s₁ b).call = some call') (hseq : (s₁ b).seq = (s b).seq)
        (hmany' : call'.left < labels.count (b, .go)) :
        ∃ pre s₂, pre <+: (c, a) :: labels ∧ runSteps step s pre = some s₂ ∧
          ((s₂ b).call = none ∨ (s₂ b).seq ≠ (s b).seq) := by
      obtain ⟨pre, s₂, hpre, hrun', hend⟩ := ih hrest hcall' hmany'
      exact ⟨(c, a) :: pre, s₂, List.cons_prefix_cons.mpr ⟨rfl, hpre⟩,
        runSteps_cons.mpr ⟨s₁, hstep, hrun'⟩, hseq ▸ hend⟩
    by_cases hseq : (s₁ b).seq = (s b).seq
    · obtain ⟨y, rfl, hkeep⟩ := step_update hstep
      by_cases hb : b = c
      · subst hb
        by_cases ha : a = .go
        · subst ha
          rcases go_nearer hstep hcall with hnone | hne | ⟨call', hcall', hlt⟩
          · exact ⟨[(b, .go)], _, by simp, hone, .inl hnone⟩
          · exact absurd hseq hne
          · rw [List.count_cons_self] at hmany
            exact hgo call' hcall' hseq (by omega)
        · rw [List.count_cons_of_ne (by simp [ha])] at hmany
          refine hgo call ?_ hseq hmany
          rw [Function.update_self, hkeep ha (by simp [hcall]), hcall]
      · rw [List.count_cons_of_ne (by simp [Ne.symm hb])] at hmany
        exact hgo call ((congrArg Cpu.call (Function.update_of_ne hb _ _)).trans hcall) hseq hmany
    · exact ⟨[(c, a)], s₁, by simp, hone, .inr hseq⟩

/-- A reader on the CPU `r` is seen by a call on the CPU `w`, and ends before the call returns. -/
def readerRun (w r : Fin n) : List (Fin n × Act) :=
  [(w, .start), (r, .start), (r, .readLock), (w, .synchronize), (w, .go), (w, .go), (w, .go),
    (w, .go), (w, .go), (w, .go), (w, .go), (w, .go), (r, .readUnlock), (r, .tick), (w, .go),
    (w, .go), (w, .go)]

def idleRun (w r : Fin n) : List (Fin n × Act) :=
  [(w, .start), (r, .start), (r, .idleEnter), (r, .readLock), (w, .synchronize), (w, .go), (w, .go),
    (w, .go), (w, .go), (w, .go), (w, .go)]

end Uros.Kernel.Rcu
