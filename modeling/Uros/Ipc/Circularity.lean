import Uros.Foundation.Route
import Uros.Foundation.Transition

/-!
Receive rights in transit (`ipc_port_check_circularity`).

A receive right in a message points to the port that the message is for, and a circle of such
rights could never be received.  Threads that put rights into messages look for circles at the same
time, under the locks of the ports and the lock for multiple ports.  A step goes on to the next lock
that is taken or given up; the lock for multiple ports goes with the lock of a port.  The rest of
the system takes rights out of messages, moves them and destroys ports.
-/

namespace Uros.Ipc.Circularity

open Uros.Foundation Function

/-- Where the receive right of a port is, by `ip_receiver_name` and `ip_destination`. -/
inductive Place where
  | dead
  | named
  | limbo
  | transit (dest : ℕ)
  deriving DecidableEq

/-- Where a thread is in `ipc_port_check_circularity`. -/
inductive Pc where
  | outside
  | lockPort (port dest : ℕ)
  /-- before `ip_lock_try(dest)` -/
  | tryDest (port dest : ℕ)
  | lockMultiple (port dest : ℕ)
  /-- in the search for the end of the chain, before `ip_lock(base)` -/
  | lockBase (port dest base : ℕ)
  /-- at the end of the chain, before `ip_lock(port)` -/
  | lockAgain (port dest base : ℕ)
  | link (port dest base : ℕ)
  | unlockChain (port base : ℕ)
  | unlockCircle (dest : ℕ)
  deriving DecidableEq

structure State where
  place : ℕ → Place
  lock : ℕ → Option ℕ
  multiple : Option ℕ
  pc : ℕ → Pc
  /-- the thread that is about to put the right, which is in limbo, into a message -/
  checker : ℕ → Option ℕ

namespace State

/-- `ip_destination` of a port in transit -/
def next (s : State) (p : ℕ) : Option ℕ :=
  match s.place p with
  | .transit dest => some dest
  | _ => none

def acquire (s : State) (t p : ℕ) : State := { s with lock := update s.lock p (some t) }

def release (s : State) (p : ℕ) : State := { s with lock := update s.lock p none }

def goto (s : State) (t : ℕ) (pc : Pc) : State := { s with pc := update s.pc t pc }

/-- The next step of a thread, unless it has to wait for a lock. -/
def advance (s : State) (t : ℕ) : Option State :=
  match s.pc t with
  | .outside => none
  | .lockPort port dest =>
    if s.lock port = none then some ((s.acquire t port).goto t (.tryDest port dest)) else none
  | .tryDest port dest =>
    if s.lock dest = none ∧ s.next dest = none then
      some ((s.acquire t dest).goto t (.link port dest dest))
    else some ((s.release port).goto t (.lockMultiple port dest))
  | .lockMultiple port dest =>
    if s.multiple = none then
      some ({ s with multiple := some t }.goto t (.lockBase port dest dest))
    else none
  | .lockBase port dest base =>
    if s.lock base = none then
      let s := s.acquire t base
      match s.next base with
      | some base => some (s.goto t (.lockBase port dest base))
      | none =>
        if port = base then
          some ({ s with
            multiple := none
            checker := update s.checker port none }.goto t (.unlockCircle dest))
        else some (s.goto t (.lockAgain port dest base))
    else none
  | .lockAgain port dest base =>
    if s.lock port = none then
      some ({ s.acquire t port with multiple := none }.goto t (.link port dest base))
    else none
  | .link port dest base =>
    some ({ s with
      place := update s.place port (.transit dest)
      checker := update s.checker port none }.goto t (.unlockChain port base))
  | .unlockChain port base =>
    if port = base then some ((s.release port).goto t .outside)
    else (s.next port).map fun next => (s.release port).goto t (.unlockChain next base)
  | .unlockCircle dest =>
    some ((s.release dest).goto t ((s.next dest).elim .outside .unlockCircle))

end State

inductive Event where
  /-- A thread calls `ipc_port_check_circularity` for a right that it has. -/
  | call (t port dest : ℕ)
  | advance (t : ℕ)
  /-- The right of a port is received, taken out of a space or destroyed. -/
  | settle (p : ℕ) (place : Place)

def step (s : State) : Event → Option State
  | .call t port dest =>
    match s.pc t with
    | .outside =>
      if s.place port = .limbo ∧ s.checker port = none then
        if port = dest then some s
        else some ({ s with
          checker := update s.checker port (some t) }.goto t (.lockPort port dest))
      else none
    | _ => none
  | .advance t => s.advance t
  | .settle p place =>
    match place with
    | .transit _ => none
    | _ =>
      if s.lock p = none ∧ s.checker p = none then
        some { s with place := update s.place p place }
      else none

def start : State where
  place _ := .named
  lock _ := none
  multiple := none
  pc _ := .outside
  checker _ := none

/-! ## The invariant -/

namespace Pc

/-- The port that the thread is about to put into a message. -/
def port : Pc → Option ℕ
  | lockPort port _ | tryDest port _ | lockMultiple port _ => some port
  | lockBase port _ _ | lockAgain port _ _ | link port _ _ => some port
  | outside | unlockChain _ _ | unlockCircle _ => none

def serial : Pc → Prop
  | lockBase _ _ _ | lockAgain _ _ _ => True
  | _ => False

/-- The ports that the thread has locked. -/
def Holds (next : ℕ → Option ℕ) : Pc → List ℕ → Prop
  | outside, l | lockPort _ _, l | lockMultiple _ _, l => l = []
  | tryDest port _, l => l = [port]
  | lockBase _ dest base, l => Route next dest l base
  | lockAgain port dest base, l => Whole next dest base l ∧ port ≠ base
  | link port dest base, l => ∃ r, l = port :: r ∧ Whole next dest base r ∧ port ≠ base
  | unlockChain port base, l => Whole next port base l
  | unlockCircle dest, l => ∃ base, Whole next dest base l

theorem Holds.congr {next next' : ℕ → Option ℕ} {pc : Pc} {l : List ℕ} (h : pc.Holds next l)
    (heq : ∀ p ∈ l, next' p = next p) : pc.Holds next' l := by
  cases pc with
  | outside | lockPort | lockMultiple | tryDest => exact h
  | lockBase => exact Route.congr h heq
  | lockAgain => exact ⟨h.1.congr heq, h.2⟩
  | link =>
    obtain ⟨r, rfl, hwhole, hne⟩ := h
    exact ⟨r, rfl, hwhole.congr fun p hp => heq p (List.mem_cons_of_mem _ hp), hne⟩
  | unlockChain => exact Whole.congr h heq
  | unlockCircle => exact ⟨h.choose, h.choose_spec.congr heq⟩

end Pc

structure At (s : State) (t : ℕ) (pc : Pc) : Prop where
  holds : ∃ l, pc.Holds s.next l ∧ l.Nodup ∧ ∀ p, s.lock p = some t ↔ p ∈ l
  multiple : s.multiple = some t ↔ pc.serial
  port : ∀ p ∈ pc.port, s.place p = .limbo ∧ s.checker p = some t

/-- What the step of another thread leaves thread `u`. -/
structure Keeps (s s' : State) (u : ℕ) : Prop where
  pc : s'.pc u = s.pc u
  lock : ∀ p, s'.lock p = some u ↔ s.lock p = some u
  place : ∀ p, s.lock p = some u ∨ s.checker p = some u → s'.place p = s.place p
  multiple : s'.multiple = some u ↔ s.multiple = some u
  checker : ∀ p, s.checker p = some u → s'.checker p = some u

theorem Keeps.at {s s' : State} {u : ℕ} (h : Keeps s s' u) (hat : At s u (s.pc u)) :
    At s' u (s'.pc u) := by
  obtain ⟨l, hholds, hnodup, hlock⟩ := hat.holds
  rw [h.pc]
  refine ⟨⟨l, hholds.congr fun p hp => ?_, hnodup, fun p => (h.lock p).trans (hlock p)⟩,
    h.multiple.trans hat.multiple, fun p hp => ?_⟩
  · rw [State.next, h.place p (.inl ((hlock p).mpr hp)), State.next]
  · obtain ⟨hlimbo, hchecker⟩ := hat.port p hp
    exact ⟨(h.place p (.inr hchecker)).trans hlimbo, h.checker p hchecker⟩

structure Inv (s : State) : Prop where
  ends : ∀ p, Ends s.next p
  threads : ∀ t, At s t (s.pc t)

namespace Inv

variable {s s' : State} {t u p x : ℕ} {v : Option ℕ}

theorem init : Inv start where
  ends p := .stop rfl
  threads t := ⟨⟨[], rfl, List.nodup_nil, by simp [start]⟩, by simp [start, Pc.serial],
    by simp [start, Pc.port]⟩

/-- Thread `t` goes on at `pc`, in a state in which the other threads find what they had. -/
theorem goto {s₁ : State} {pc : Pc} (h : Inv s) (hkeeps : ∀ u, u ≠ t → Keeps s (s₁.goto t pc) u)
    (hat : At s₁ t pc) (hends : ∀ p, Ends s₁.next p) : Inv (s₁.goto t pc) where
  ends := hends
  threads u := by
    by_cases hu : u = t
    · subst hu
      have hpc : (s₁.goto u pc).pc u = pc := update_self ..
      rw [hpc]
      exact ⟨hat.holds, hat.multiple, hat.port⟩
    · exact (hkeeps u hu).at (h.threads u)

/-- What was free or with thread `t` is taken or dropped by `t`. -/
theorem update_other {f : ℕ → Option ℕ} (hx : f x = none ∨ f x = some t)
    (hv : v = none ∨ v = some t) (hu : u ≠ t) (p : ℕ) :
    update f x v p = some u ↔ f p = some u := by
  by_cases hp : p = x
  · subst hp
    rcases hx with hx | hx <;> rcases hv with rfl | rfl <;> simp [hx, Ne.symm hu]
  · simp [hp]

theorem lock_acquire {l : List ℕ} (hl : ∀ p, s.lock p = some t ↔ p ∈ l) (p : ℕ) :
    update s.lock x (some t) p = some t ↔ p ∈ x :: l := by
  by_cases hp : p = x
  · simp [hp]
  · simp [hp, hl]

theorem lock_release {l l' : List ℕ} (hl : ∀ p, s.lock p = some t ↔ p ∈ l)
    (hl' : ∀ p, p ∈ l' ↔ p ∈ l ∧ p ≠ x) (p : ℕ) :
    update s.lock x none p = some t ↔ p ∈ l' := by
  by_cases hp : p = x
  · simp [hp, hl']
  · simp [hp, hl, hl']

theorem not_mem_of_free {l : List ℕ} (hl : ∀ p, s.lock p = some t ↔ p ∈ l)
    (hx : s.lock x = none) : x ∉ l := by
  rw [← hl, hx]
  simp

theorem multiple_other {m : Option ℕ} (hs : s.multiple = none ∨ s.multiple = some t)
    (hm : m = none ∨ m = some t) (hu : u ≠ t) : m = some u ↔ s.multiple = some u := by
  rcases hs with hs | hs <;> rcases hm with rfl | rfl <;> simp [hs, Ne.symm hu]

theorem keeps_lock {pc : Pc} (hx : s.lock x = none ∨ s.lock x = some t)
    (hv : v = none ∨ v = some t) (hu : u ≠ t) :
    Keeps s ({ s with lock := update s.lock x v }.goto t pc) u where
  pc := by simp [State.goto, hu]
  lock := update_other hx hv hu
  place _ _ := rfl
  multiple := Iff.rfl
  checker _ hc := hc

theorem at_pc (h : Inv s) {pc : Pc} (hpc : s.pc t = pc) : At s t pc := hpc ▸ h.threads t

theorem lockPort {port dest : ℕ} (h : Inv s) (hpc : s.pc t = .lockPort port dest)
    (hfree : s.lock port = none) : Inv ((s.acquire t port).goto t (.tryDest port dest)) := by
  have hat := h.at_pc hpc
  obtain ⟨l, hl, -, hlock⟩ := hat.holds
  obtain rfl : l = [] := hl
  exact h.goto (fun u hu => keeps_lock (.inl hfree) (.inr rfl) hu)
    ⟨⟨[port], rfl, List.nodup_singleton port, lock_acquire hlock⟩, hat.multiple, hat.port⟩ h.ends

theorem tryDest {port dest : ℕ} (h : Inv s) (hpc : s.pc t = .tryDest port dest)
    (hfree : s.lock dest = none) (hnext : s.next dest = none) :
    Inv ((s.acquire t dest).goto t (.link port dest dest)) := by
  have hat := h.at_pc hpc
  obtain ⟨l, hl, -, hlock⟩ := hat.holds
  obtain rfl : l = [port] := hl
  have hne : port ≠ dest := fun heq => not_mem_of_free hlock hfree (by simp [heq])
  refine h.goto (fun u hu => keeps_lock (.inl hfree) (.inr rfl) hu)
    ⟨⟨[port, dest], ⟨[dest], rfl, ⟨[], rfl, .nil dest, hnext⟩, hne⟩, by simp [hne], fun p => ?_⟩,
      hat.multiple, hat.port⟩ h.ends
  exact (lock_acquire hlock p).trans (by simp [or_comm])

theorem tryDest_fails {port dest : ℕ} (h : Inv s) (hpc : s.pc t = .tryDest port dest) :
    Inv ((s.release port).goto t (.lockMultiple port dest)) := by
  have hat := h.at_pc hpc
  obtain ⟨l, hl, -, hlock⟩ := hat.holds
  obtain rfl : l = [port] := hl
  exact h.goto (fun u hu => keeps_lock (.inr ((hlock port).mpr (by simp))) (.inl rfl) hu)
    ⟨⟨[], rfl, List.nodup_nil, lock_release hlock (by simp)⟩, hat.multiple, hat.port⟩ h.ends

theorem lockMultiple {port dest : ℕ} (h : Inv s) (hpc : s.pc t = .lockMultiple port dest)
    (hfree : s.multiple = none) :
    Inv ({ s with multiple := some t }.goto t (.lockBase port dest dest)) := by
  have hat := h.at_pc hpc
  obtain ⟨l, hl, -, hlock⟩ := hat.holds
  obtain rfl : l = [] := hl
  refine h.goto (fun u hu => ⟨by simp [State.goto, hu], fun _ => Iff.rfl, fun _ _ => rfl,
      multiple_other (.inl hfree) (.inr rfl) hu, fun _ hc => hc⟩)
    ⟨⟨[], .nil dest, List.nodup_nil, hlock⟩, by simp [Pc.serial], hat.port⟩ h.ends

theorem lockBase {port dest base : ℕ} (h : Inv s) (hpc : s.pc t = .lockBase port dest base)
    (hfree : s.lock base = none) {next : ℕ} (hnext : s.next base = some next) :
    Inv ((s.acquire t base).goto t (.lockBase port dest next)) := by
  have hat := h.at_pc hpc
  obtain ⟨l, hroute, hnodup, hlock⟩ := hat.holds
  have hbase := not_mem_of_free hlock hfree
  refine h.goto (fun u hu => keeps_lock (.inl hfree) (.inr rfl) hu)
    ⟨⟨l ++ [base], Route.concat hroute hnext, ?_, fun p => ?_⟩, hat.multiple, hat.port⟩ h.ends
  · exact (List.perm_append_singleton base l).nodup_iff.mpr (List.nodup_cons.mpr ⟨hbase, hnodup⟩)
  · exact (lock_acquire hlock p).trans (by simp [or_comm])

theorem lockEnd {port dest base : ℕ} (h : Inv s) (hpc : s.pc t = .lockBase port dest base)
    (hfree : s.lock base = none) (hnext : s.next base = none) :
    ∃ l, Whole s.next dest base l ∧ l.Nodup ∧
      ∀ p, (s.acquire t base).lock p = some t ↔ p ∈ l := by
  obtain ⟨l, hroute, hnodup, hlock⟩ := (h.at_pc hpc).holds
  exact ⟨base :: l, ⟨l, rfl, hroute, hnext⟩,
    List.nodup_cons.mpr ⟨not_mem_of_free hlock hfree, hnodup⟩, lock_acquire hlock⟩

theorem circle {dest base : ℕ} (h : Inv s) (hpc : s.pc t = .lockBase base dest base)
    (hfree : s.lock base = none) (hnext : s.next base = none) :
    Inv ({ s.acquire t base with
      multiple := none
      checker := update s.checker base none }.goto t (.unlockCircle dest)) := by
  have hat := h.at_pc hpc
  obtain ⟨l, hwhole, hnodup, hlock⟩ := h.lockEnd hpc hfree hnext
  have hchecker := (hat.port base rfl).2
  exact h.goto (fun u hu => ⟨update_of_ne hu _ _, update_other (.inl hfree) (.inr rfl) hu,
      fun _ _ => rfl, multiple_other (.inr (hat.multiple.mpr trivial)) (.inl rfl) hu,
      fun p => (update_other (.inr hchecker) (.inl rfl) hu p).mpr⟩)
    ⟨⟨l, ⟨base, hwhole⟩, hnodup, hlock⟩, by simp [Pc.serial], by simp [Pc.port]⟩ h.ends

theorem lockAgain {port dest base : ℕ} (h : Inv s) (hpc : s.pc t = .lockAgain port dest base)
    (hfree : s.lock port = none) :
    Inv ({ s.acquire t port with multiple := none }.goto t (.link port dest base)) := by
  have hat := h.at_pc hpc
  obtain ⟨l, ⟨hwhole, hne⟩, hnodup, hlock⟩ := hat.holds
  exact h.goto (fun u hu => ⟨update_of_ne hu _ _, update_other (.inl hfree) (.inr rfl) hu,
      fun _ _ => rfl, multiple_other (.inr (hat.multiple.mpr trivial)) (.inl rfl) hu,
      fun _ hc => hc⟩)
    ⟨⟨port :: l, ⟨l, rfl, hwhole, hne⟩,
      List.nodup_cons.mpr ⟨not_mem_of_free hlock hfree, hnodup⟩, lock_acquire hlock⟩,
      by simp [Pc.serial], hat.port⟩ h.ends

theorem link {port dest base : ℕ} (h : Inv s) (hpc : s.pc t = .link port dest base) :
    Inv ({ s with
      place := update s.place port (.transit dest)
      checker := update s.checker port none }.goto t (.unlockChain port base)) := by
  have hat := h.at_pc hpc
  obtain ⟨l, ⟨r, rfl, hwhole, hne⟩, hnodup, hlock⟩ := hat.holds
  have hchecker := (hat.port port rfl).2
  generalize hs₁ : { s with
    place := update s.place port (.transit dest)
    checker := update s.checker port none } = s₁
  have hother : ∀ p, p ≠ port → s₁.next p = s.next p := fun p hp => by
    simp [← hs₁, State.next, hp]
  have hnext : s₁.next port = some dest := by simp [← hs₁, State.next]
  -- The chain from `dest` does not lead to `port`, so it is the same as before.
  have hport : port ∉ r := (List.nodup_cons.mp hnodup).1
  obtain ⟨q, rfl, hroute, hbase⟩ := hwhole.congr fun p hp =>
    hother p (ne_of_mem_of_not_mem hp hport)
  have hplace : ∀ u, u ≠ t → ∀ p, s.lock p = some u ∨ s.checker p = some u → p ≠ port := by
    rintro u hu p hp rfl
    have hp' : s.lock p = some t := (hlock p).mpr List.mem_cons_self
    rw [hp', hchecker] at hp
    simp [Ne.symm hu] at hp
  refine h.goto (fun u hu => ⟨by simp [State.goto, ← hs₁, hu], fun p => by rw [← hs₁]; rfl,
      fun p hp => ?_, by rw [← hs₁]; rfl, fun p hc => ?_⟩)
    ⟨⟨base :: port :: q, ⟨port :: q, rfl, .cons hnext hroute, hbase⟩, ?_, fun p => ?_⟩, ?_,
      by simp [Pc.port]⟩
    fun p => (h.ends p).change hother (.go hnext (hroute.ends hbase))
  · simp [State.goto, ← hs₁, hplace u hu p hp]
  · simpa [State.goto, ← hs₁, hplace u hu p (.inr hc)] using hc
  · exact (List.Perm.swap ..).nodup_iff.mp hnodup
  · rw [← hs₁]
    exact (hlock p).trans (by simp [or_left_comm])
  · rw [← hs₁]
    exact hat.multiple

theorem unlock {a b c : ℕ} {l : List ℕ} {pc : Pc} (h : Inv s) (hm : ¬ s.multiple = some t)
    (hwhole : Whole s.next a b l) (hnodup : l.Nodup) (hlock : ∀ p, s.lock p = some t ↔ p ∈ l)
    (hnext : s.next a = some c) (hpc : ∀ l, Whole s.next c b l → pc.Holds s.next l)
    (hserial : ¬ pc.serial) (hport : pc.port = none) : Inv ((s.release a).goto t pc) := by
  obtain ⟨l', hwhole', hnodup', hl'⟩ := hwhole.tail hnodup hnext
  have ha : s.lock a = some t := by
    obtain ⟨r, rfl, hroute, hb⟩ := hwhole
    rw [hlock]
    cases hroute with
    | nil => simp
    | cons => simp
  exact h.goto (fun u hu => keeps_lock (.inr ha) (.inl rfl) hu)
    ⟨⟨l', hpc l' hwhole', hnodup', lock_release hlock hl'⟩, iff_of_false hm hserial,
      by simp [hport]⟩ h.ends

theorem unlockLast {a b : ℕ} {l : List ℕ} (h : Inv s) (hm : ¬ s.multiple = some t)
    (hwhole : Whole s.next a b l) (hlock : ∀ p, s.lock p = some t ↔ p ∈ l)
    (hnext : s.next a = none) : Inv ((s.release a).goto t .outside) := by
  obtain ⟨-, rfl⟩ := hwhole.eq_singleton hnext
  exact h.goto (fun u hu => keeps_lock (.inr ((hlock a).mpr (by simp))) (.inl rfl) hu)
    ⟨⟨[], rfl, List.nodup_nil, lock_release hlock (by simp)⟩, iff_of_false hm id,
      by simp [Pc.port]⟩ h.ends

theorem advance (h : Inv s) (hstep : s.advance t = some s') : Inv s' := by
  rw [State.advance] at hstep
  split at hstep
  · cases hstep
  · next hpc =>
    simp only [Option.ite_none_right_eq_some, Option.some.injEq] at hstep
    obtain ⟨hfree, rfl⟩ := hstep
    exact h.lockPort hpc hfree
  · next hpc =>
    split_ifs at hstep with hdest <;> cases hstep
    · exact h.tryDest hpc hdest.1 hdest.2
    · exact h.tryDest_fails hpc
  · next hpc =>
    simp only [Option.ite_none_right_eq_some, Option.some.injEq] at hstep
    obtain ⟨hfree, rfl⟩ := hstep
    exact h.lockMultiple hpc hfree
  · next port dest base hpc =>
    obtain ⟨hfree, hstep⟩ := Option.ite_none_right_eq_some.mp hstep
    dsimp only at hstep
    split at hstep
    · next hnext =>
      cases hstep
      exact h.lockBase hpc hfree hnext
    · next hnext =>
      split_ifs at hstep with hport <;> cases hstep
      · subst hport
        exact h.circle hpc hfree hnext
      · have hat := h.at_pc hpc
        obtain ⟨l, hwhole, hnodup, hlock⟩ := h.lockEnd hpc hfree hnext
        exact h.goto (fun u hu => keeps_lock (.inl hfree) (.inr rfl) hu)
          ⟨⟨l, ⟨hwhole, hport⟩, hnodup, hlock⟩, hat.multiple, hat.port⟩ h.ends
  · next hpc =>
    simp only [Option.ite_none_right_eq_some, Option.some.injEq] at hstep
    obtain ⟨hfree, rfl⟩ := hstep
    exact h.lockAgain hpc hfree
  · next hpc =>
    cases hstep
    exact h.link hpc
  · next port base hpc =>
    have hat := h.at_pc hpc
    obtain ⟨l, hwhole, hnodup, hlock⟩ := hat.holds
    have hm : ¬ s.multiple = some t := hat.multiple.mp
    split_ifs at hstep with hport
    · cases hstep
      subst hport
      exact h.unlockLast hm hwhole hlock hwhole.choose_spec.2.2
    · obtain ⟨next, hnext, rfl⟩ := Option.map_eq_some_iff.mp hstep
      exact h.unlock hm hwhole hnodup hlock hnext (fun _ hl => hl) id rfl
  · next dest hpc =>
    have hat := h.at_pc hpc
    obtain ⟨l, ⟨base, hwhole⟩, hnodup, hlock⟩ := hat.holds
    have hm : ¬ s.multiple = some t := hat.multiple.mp
    cases hstep
    cases hnext : s.next dest with
    | none => exact h.unlockLast hm hwhole hlock hnext
    | some next => exact h.unlock hm hwhole hnodup hlock hnext (fun _ hl => ⟨base, hl⟩) id rfl

theorem call {port dest : ℕ} (h : Inv s) (hpc : s.pc t = .outside)
    (hlimbo : s.place port = .limbo) (hchecker : s.checker port = none) :
    Inv ({ s with
      checker := update s.checker port (some t) }.goto t (.lockPort port dest)) := by
  have hat := h.at_pc hpc
  exact h.goto (fun u hu => ⟨update_of_ne hu _ _, fun _ => Iff.rfl, fun _ _ => rfl, Iff.rfl,
      fun p => (update_other (.inl hchecker) (.inr rfl) hu p).mpr⟩)
    ⟨hat.holds, hat.multiple, by simpa [Pc.port] using hlimbo⟩ h.ends

theorem settle {place : Place} (h : Inv s) (hlock : s.lock p = none)
    (hchecker : s.checker p = none) (hplace : ∀ dest, place ≠ .transit dest) :
    Inv { s with place := update s.place p place } where
  ends a := by
    refine (h.ends a).change (c := p) (fun d hd => by simp [State.next, hd]) (.stop ?_)
    cases place <;> simp_all [State.next]
  threads u := by
    refine Keeps.at (s := s) ⟨rfl, fun _ => Iff.rfl, fun q hq => ?_, Iff.rfl, fun _ hc => hc⟩
      (h.threads u)
    have hqp : q ≠ p := by
      rintro rfl
      simp [hlock, hchecker] at hq
    simp [hqp]

theorem step {e : Event} (h : Inv s) (hstep : step s e = some s') : Inv s' := by
  cases e with
  | call t port dest =>
    simp only [Circularity.step] at hstep
    split at hstep
    · next hpc =>
      split_ifs at hstep with hport hdest <;> cases hstep
      · exact h
      · exact h.call hpc hport.1 hport.2
    · cases hstep
  | advance t => exact h.advance hstep
  | settle p place =>
    simp only [Circularity.step] at hstep
    split at hstep
    · cases hstep
    · next hplace =>
      simp only [Option.ite_none_right_eq_some, Option.some.injEq] at hstep
      obtain ⟨hfree, rfl⟩ := hstep
      exact h.settle hfree.1 hfree.2 hplace

/-! ### Threads that wait -/

/-- A thread that has locked ports, but not all of a chain, goes on. -/
theorem advances_of_lock (h : Inv s) (hlock : s.lock p = some t) (hm : ¬ s.multiple = some t) :
    ∃ s', s.advance t = some s' := by
  have hat := h.threads t
  obtain ⟨l, hholds, -, hl⟩ := hat.holds
  have hp := (hl p).mp hlock
  rw [State.advance]
  cases hpc : s.pc t with
  | outside | lockPort | lockMultiple =>
    rw [hpc] at hholds
    obtain rfl : l = [] := hholds
    cases hp
  | lockBase | lockAgain => exact absurd (hat.multiple.mpr (by simp [hpc, Pc.serial])) hm
  | tryDest => dsimp only; split_ifs <;> exact ⟨_, rfl⟩
  | link | unlockCircle => exact ⟨_, rfl⟩
  | unlockChain port base =>
    rw [hpc] at hholds
    obtain ⟨r, rfl, hroute, -⟩ := hholds
    dsimp only
    cases hroute with
    | nil => exact ⟨_, if_pos rfl⟩
    | cons hnext =>
      split_ifs
      · exact ⟨_, rfl⟩
      · exact ⟨_, by rw [hnext, Option.map_some]⟩

/-- A thread with the lock for multiple ports waits only for one that goes on. -/
theorem advances_of_multiple (h : Inv s) (hm : s.multiple = some t) :
    ∃ u s', s.advance u = some s' := by
  have hat := h.threads t
  have hserial := hat.multiple.mp hm
  obtain ⟨l, hholds, -, hl⟩ := hat.holds
  have hwait : ∀ p u, s.lock p = some u → p ∉ l → ∃ u s', s.advance u = some s' := by
    intro p u hlock hp
    refine ⟨u, h.advances_of_lock hlock fun hu => hp ((hl p).mp ?_)⟩
    rw [hlock, ← hu, hm]
  cases hpc : s.pc t with
  | lockBase port dest base =>
    rw [hpc] at hholds
    cases hlock : s.lock base with
    | some u => exact hwait base u hlock (Ends.not_mem h.ends hholds)
    | none =>
      refine ⟨t, ?_⟩
      simp only [State.advance, hpc, hlock, if_true]
      split
      · exact ⟨_, rfl⟩
      · split_ifs <;> exact ⟨_, rfl⟩
  | lockAgain port dest base =>
    rw [hpc] at hholds hat
    obtain ⟨⟨r, rfl, hroute, -⟩, hne⟩ := hholds
    cases hlock : s.lock port with
    | some u =>
      refine hwait port u hlock fun hp => ?_
      -- The port is in limbo and those of the chain are not.
      have hsome := hroute.isSome (List.mem_of_ne_of_mem hne hp)
      simp [State.next, (hat.port port rfl).1] at hsome
    | none => exact ⟨t, _, by rw [State.advance, hpc]; exact if_pos hlock⟩
  | _ => simp [hpc, Pc.serial] at hserial

theorem advances (h : Inv s) (hpc : s.pc t ≠ .outside) : ∃ u s', s.advance u = some s' := by
  have hlocked : ∀ p u, s.lock p = some u → ∃ u s', s.advance u = some s' := by
    intro p u hlock
    by_cases hm : s.multiple = some u
    · exact h.advances_of_multiple hm
    · exact ⟨u, h.advances_of_lock hlock hm⟩
  obtain ⟨l, hholds, -, hl⟩ := (h.threads t).holds
  cases l with
  | cons p l => exact hlocked p t ((hl p).mpr List.mem_cons_self)
  | nil =>
    cases hpc' : s.pc t with
    | outside => exact absurd hpc' hpc
    | lockPort port dest =>
      cases hlock : s.lock port with
      | some u => exact hlocked port u hlock
      | none => exact ⟨t, _, by rw [State.advance, hpc']; exact if_pos hlock⟩
    | lockMultiple port dest =>
      cases hm : s.multiple with
      | some u => exact h.advances_of_multiple hm
      | none => exact ⟨t, _, by rw [State.advance, hpc']; exact if_pos hm⟩
    | lockBase port dest base =>
      exact h.advances_of_multiple ((h.threads t).multiple.mpr (by simp [hpc', Pc.serial]))
    | tryDest | lockAgain | link | unlockChain | unlockCircle =>
      simp [hpc', Pc.Holds, Whole] at hholds

end Inv

variable {events : List Event} {s s' : State} {t u : ℕ}

/-! ## A thread alone -/

theorem advance_pc (hstep : s.advance t = some s') (hu : u ≠ t) : s'.pc u = s.pc u := by
  have hgoto : ∀ (s₁ : State) pc, (s₁.goto t pc).pc u = s₁.pc u := fun _ _ => update_of_ne hu _ _
  have hacquire : ∀ x, (s.acquire t x).pc = s.pc := fun _ => rfl
  have hrelease : ∀ x, (s.release x).pc = s.pc := fun _ => rfl
  unfold State.advance at hstep
  split at hstep <;> grind [Option.map_eq_some_iff]

/-- No thread but `t` is in the check. -/
structure Alone (s : State) (t : ℕ) : Prop where
  inv : Inv s
  others : ∀ u, u ≠ t → s.pc u = .outside

/-- Thread `t` returns from the check. -/
inductive Returns (t : ℕ) : State → Prop
  | done {s : State} : s.pc t = .outside → Returns t s
  | next {s s' : State} : s.advance t = some s' → Returns t s' → Returns t s

theorem Returns.exists_run (h : Returns t s) : ∃ n s',
    runSteps step s (List.replicate n (.advance t)) = some s' ∧ s'.pc t = .outside := by
  induction h with
  | done hpc => exact ⟨0, _, rfl, hpc⟩
  | next hstep _ ih =>
    obtain ⟨n, s', hrun, hpc⟩ := ih
    exact ⟨n + 1, s', runSteps_cons.mpr ⟨_, hstep, hrun⟩, hpc⟩

namespace Alone

theorem advance (h : Alone s t) (hpc : s.pc t ≠ .outside)
    (hgo : ∀ s', s.advance t = some s' → Alone s' t → Returns t s') : Returns t s := by
  obtain ⟨u, s', hstep⟩ := h.inv.advances hpc
  have hu : u = t := by
    by_contra hu
    simp [State.advance, h.others u hu] at hstep
  subst hu
  refine .next hstep (hgo s' hstep ⟨h.inv.advance hstep, fun v hv => ?_⟩)
  exact (advance_pc hstep hv).trans (h.others v hv)

variable {port dest base a : ℕ} {next : ℕ → Option ℕ}

theorem unlockCircle (hends : Ends next a) (h : Alone s t) (hnext : s.next = next)
    (hpc : s.pc t = .unlockCircle a) : Returns t s := by
  induction hends generalizing s with
  | stop ha =>
    refine h.advance (by simp [hpc]) fun s' hstep _ => .done ?_
    simp only [State.advance, hpc, hnext, ha, Option.some.injEq] at hstep
    subst hstep
    exact update_self ..
  | go ha _ ih =>
    refine h.advance (by simp [hpc]) fun s' hstep h' => ?_
    simp only [State.advance, hpc, hnext, ha, Option.some.injEq] at hstep
    subst hstep
    exact ih h' hnext (update_self ..)

theorem unlockChain (hends : Ends next a) (h : Alone s t) (hnext : s.next = next)
    (hpc : s.pc t = .unlockChain a base) : Returns t s := by
  induction hends generalizing s with
  | stop ha =>
    refine h.advance (by simp [hpc]) fun s' hstep _ => .done ?_
    simp only [State.advance, hpc, hnext, ha, Option.map_none, Option.ite_none_right_eq_some,
      Option.some.injEq] at hstep
    rw [← hstep.2]
    exact update_self ..
  | go ha _ ih =>
    refine h.advance (by simp [hpc]) fun s' hstep h' => ?_
    simp only [State.advance, hpc, hnext, ha, Option.map_some] at hstep
    split_ifs at hstep <;> cases hstep
    · exact .done (update_self ..)
    · exact ih h' hnext (update_self ..)

theorem link (h : Alone s t) (hpc : s.pc t = .link port dest base) : Returns t s := by
  refine h.advance (by simp [hpc]) fun s' hstep h' => ?_
  simp only [State.advance, hpc, Option.some.injEq] at hstep
  subst hstep
  -- The chain that is unlocked is the one that now goes on from `port`.
  exact unlockChain (h'.inv.ends port) h' rfl (update_self ..)

theorem lockAgain (h : Alone s t) (hpc : s.pc t = .lockAgain port dest base) : Returns t s := by
  refine h.advance (by simp [hpc]) fun s' hstep h' => ?_
  simp only [State.advance, hpc, Option.ite_none_right_eq_some, Option.some.injEq] at hstep
  obtain ⟨-, rfl⟩ := hstep
  exact h'.link (update_self ..)

theorem lockBase (hends : Ends next a) (h : Alone s t) (hnext : s.next = next)
    (hpc : s.pc t = .lockBase port dest a) : Returns t s := by
  induction hends generalizing s with
  | stop ha =>
    refine h.advance (by simp [hpc]) fun s' hstep h' => ?_
    have hacquire : ∀ x, (s.acquire t x).next = next := fun _ => hnext
    simp only [State.advance, hpc, hacquire, ha, Option.ite_none_right_eq_some] at hstep
    obtain ⟨-, hstep⟩ := hstep
    split_ifs at hstep <;> cases hstep
    · exact unlockCircle (h'.inv.ends dest) h' rfl (update_self ..)
    · exact h'.lockAgain (update_self ..)
  | go ha _ ih =>
    refine h.advance (by simp [hpc]) fun s' hstep h' => ?_
    have hacquire : ∀ x, (s.acquire t x).next = next := fun _ => hnext
    simp only [State.advance, hpc, hacquire, ha, Option.ite_none_right_eq_some,
      Option.some.injEq] at hstep
    obtain ⟨-, rfl⟩ := hstep
    exact ih h' hnext (update_self ..)

theorem lockMultiple (h : Alone s t) (hpc : s.pc t = .lockMultiple port dest) : Returns t s := by
  refine h.advance (by simp [hpc]) fun s' hstep h' => ?_
  simp only [State.advance, hpc, Option.ite_none_right_eq_some, Option.some.injEq] at hstep
  obtain ⟨-, rfl⟩ := hstep
  exact lockBase (h'.inv.ends dest) h' rfl (update_self ..)

theorem tryDest (h : Alone s t) (hpc : s.pc t = .tryDest port dest) : Returns t s := by
  refine h.advance (by simp [hpc]) fun s' hstep h' => ?_
  simp only [State.advance, hpc] at hstep
  split_ifs at hstep <;> cases hstep
  · exact h'.link (update_self ..)
  · exact h'.lockMultiple (update_self ..)

theorem returns (h : Alone s t) : Returns t s := by
  cases hpc : s.pc t with
  | outside => exact .done hpc
  | lockPort port dest =>
    refine h.advance (by simp [hpc]) fun s' hstep h' => ?_
    simp only [State.advance, hpc, Option.ite_none_right_eq_some, Option.some.injEq] at hstep
    obtain ⟨-, rfl⟩ := hstep
    exact h'.tryDest (update_self ..)
  | tryDest => exact h.tryDest hpc
  | lockMultiple => exact h.lockMultiple hpc
  | lockBase port dest base => exact lockBase (h.inv.ends base) h rfl hpc
  | lockAgain => exact h.lockAgain hpc
  | link => exact h.link hpc
  | unlockChain port => exact unlockChain (h.inv.ends port) h rfl hpc
  | unlockCircle dest => exact unlockCircle (h.inv.ends dest) h rfl hpc

end Alone

theorem reachable_inv (hrun : runSteps step start events = some s) : Inv s :=
  runSteps_invariant (fun _ _ _ => Inv.step) .init hrun

/-- Two threads send each of two rights to the port of the other. -/
def crossed : List Event :=
  [.settle 0 .limbo, .settle 1 .limbo, .call 5 0 1, .call 6 1 0] ++
    List.replicate 5 (.advance 5) ++ List.replicate 4 (.advance 6)

theorem crossed_run : ∃ s, runSteps step start crossed = some s ∧
    s.next 0 = some 1 ∧ s.pc 5 = .outside ∧ s.pc 6 = .lockBase 1 0 1 := by
  have hrun : (runSteps step start crossed).map (fun s => (s.next 0, s.pc 5, s.pc 6)) =
      some (some 1, .outside, .lockBase 1 0 1) := by decide
  simpa only [Option.map_eq_some_iff, Prod.mk.injEq] using hrun

/-- In every interleaving the rights in transit form no circle, and the search for the end of a
chain comes to one. -/
theorem transit_no_circle (hrun : runSteps step start events = some s) (p : ℕ) :
    (∃ l base, Route s.next p l base ∧ s.next base = none) ∧
      ∀ l, l ≠ [] → ¬ Route s.next p l p :=
  ⟨((reachable_inv hrun).ends p).exists_route, fun _ => ((reachable_inv hrun).ends p).not_circle⟩

theorem transit_no_circle_crossed : ∃ s, runSteps step start crossed = some s ∧
    s.next 0 = some 1 ∧ ∃ l base, Route s.next 0 l base ∧ s.next base = none := by
  obtain ⟨s, hrun, hnext, -⟩ := crossed_run
  exact ⟨s, hrun, hnext, (transit_no_circle hrun 0).1⟩

/-- The threads never wait for each other: as long as one of them is in the check, one of them
goes on. -/
theorem check_not_deadlocked (hrun : runSteps step start events = some s) (t : ℕ)
    (ht : s.pc t ≠ .outside) : ∃ u s', step s (.advance u) = some s' :=
  (reachable_inv hrun).advances ht

theorem check_not_deadlocked_crossed : ∃ s, runSteps step start crossed = some s ∧
    s.pc 6 ≠ .outside ∧ ∃ u s', step s (.advance u) = some s' := by
  obtain ⟨s, hrun, -, -, hpc⟩ := crossed_run
  have ht : s.pc 6 ≠ .outside := by simp [hpc]
  exact ⟨s, hrun, ht, check_not_deadlocked hrun 6 ht⟩

/-- A thread that no other thread's check disturbs returns from its own. -/
theorem check_returns (hrun : runSteps step start events = some s) (t : ℕ)
    (hothers : ∀ u, u ≠ t → s.pc u = .outside) : ∃ n s',
    runSteps step s (List.replicate n (.advance t)) = some s' ∧ s'.pc t = .outside :=
  (Alone.returns ⟨reachable_inv hrun, hothers⟩).exists_run

theorem check_returns_called : ∃ s,
    runSteps step start [.settle 1 .limbo, .call 6 1 0] = some s ∧ s.pc 6 = .lockPort 1 0 ∧
      ∃ n s', runSteps step s (List.replicate n (.advance 6)) = some s' ∧ s'.pc 6 = .outside := by
  have hrun : runSteps step start [.settle 1 .limbo, .call 6 1 0] = some _ := rfl
  exact ⟨_, hrun, rfl, check_returns hrun 6 fun u hu => update_of_ne hu _ _⟩

/-- A thread that has returned from the check has no lock. -/
theorem check_releases_locks (hrun : runSteps step start events = some s) (t : ℕ)
    (ht : s.pc t = .outside) : (∀ p, s.lock p ≠ some t) ∧ s.multiple ≠ some t := by
  have hat := (reachable_inv hrun).at_pc ht
  obtain ⟨l, hl, -, hlock⟩ := hat.holds
  obtain rfl : l = [] := hl
  exact ⟨fun p hp => by simpa using (hlock p).mp hp, hat.multiple.mp⟩

theorem check_releases_locks_crossed : ∃ s, runSteps step start crossed = some s ∧
    s.pc 5 = .outside ∧ ∀ p, s.lock p ≠ some 5 := by
  obtain ⟨s, hrun, -, ht, -⟩ := crossed_run
  exact ⟨s, hrun, ht, (check_releases_locks hrun 5 ht).1⟩

end Uros.Ipc.Circularity
