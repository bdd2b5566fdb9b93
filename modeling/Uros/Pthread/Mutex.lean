import Mathlib.Data.Fintype.Basic
import Mathlib.Data.List.Nodup
import Mathlib.Logic.Function.Basic
import Uros.Foundation.SignedInt
import Uros.Foundation.Transition

/-!
Mutexes of libpthreads.

A step is one access to a shared word of the mutex; the parts under its spin lock, which
alone touch the owner and the count, are single steps.  `pthread_mutex_init` publishes the
signature first and clears the state word last.  No thread exits while it owns a mutex, so
the check of robust mutexes finds nothing and is left out.
-/

namespace Uros.Pthread.Mutex

open Uros.Foundation

variable {θ : Type} {t : θ}

inductive Sig where
  | static
  | ready
  deriving DecidableEq

inductive Kind where
  | normal
  | errorcheck
  | recursive
  deriving DecidableEq

inductive Call where
  | lock
  | trylock
  | timedlock
  | unlock
  deriving DecidableEq

inductive Pc where
  | outside
  | inits (c : Call)
  | clears (c : Call)
  | checks (c : Call)
  | cas (c : Call)
  | swaps (c : Call)
  | waits (c : Call)
  | parked (c : Call)
  | adds
  | releases
  | drops
  | wakes
  deriving DecidableEq

/-- A mutex and its threads.  The state word `word` is 0, 1 or 2; `sleeping` are the threads
that the kernel has parked on it, in arrival order, and `held` is history: the threads of the
lock calls that have succeeded and that no unlock call has undone. -/
structure State (θ : Type) where
  sig : Sig
  kind : Kind
  word : ℕ
  owner : Option θ
  count : ℤ
  pc : θ → Pc
  sleeping : List θ
  held : List θ

def static : State θ := ⟨.static, .normal, 0, none, 0, fun _ => .outside, [], []⟩

def initialised (kind : Kind) : State θ := { static with sig := .ready, kind := kind }

inductive Act where
  | start (c : Call)
  | go
  | timeout
  | spurious
  deriving DecidableEq

def enter (kind : Kind) : Call → Pc
  | .unlock => .releases
  | .trylock => if kind = .recursive then .checks .trylock else .cas .trylock
  | c => if kind = .normal then .cas c else .checks c

section Steps

variable [DecidableEq θ]

def State.goto (s : State θ) (t : θ) (pc : Pc) : State θ :=
  { s with pc := Function.update s.pc t pc }

def acquire (s : State θ) (t : θ) (word : ℕ) : State θ :=
  { s with word := word, held := t :: s.held }.goto t .adds

def release (s : State θ) (t : θ) : State θ :=
  if s.owner ≠ some t then s.goto t .outside
  else if s.kind = .recursive ∧ 0 < s.count then
    { s with count := toInt32 (s.count - 1), held := s.held.erase t }.goto t .outside
  else { s with owner := none, count := 0 }.goto t .drops

def Pc.unparked : Pc → Pc
  | .parked c => .swaps c
  | pc => pc

def wakeOne (s : State θ) : State θ :=
  match s.sleeping with
  | [] => s
  | u :: rest => { s with sleeping := rest }.goto u (s.pc u).unparked

def leaveWait (s : State θ) (t : θ) (pc : Pc) : State θ :=
  { s with sleeping := s.sleeping.erase t }.goto t pc

def step (s : State θ) (l : θ × Act) : Option (State θ) :=
  match l.2, s.pc l.1 with
  | .start c, .outside =>
    some (s.goto l.1 (if s.sig = .static then .inits c else enter s.kind c))
  | .go, .inits c =>
    some ({ s with sig := .ready, kind := .normal, count := 0, owner := none }.goto l.1 (.clears c))
  | .go, .clears c => some ({ s with word := 0 }.goto l.1 (enter s.kind c))
  | .go, .checks c =>
    some (if s.owner = some l.1 then
        if s.kind = .recursive then
          { s with count := toInt32 (s.count + 1), held := l.1 :: s.held }.goto l.1 .outside
        else s.goto l.1 .outside
      else s.goto l.1 (.cas c))
  | .go, .cas c =>
    some (if s.word = 0 then acquire s l.1 1
      else s.goto l.1 (if c = .trylock then .outside else if s.word = 2 then .waits c else
        .swaps c))
  | .go, .swaps c =>
    some (if s.word = 0 then acquire s l.1 2 else { s with word := 2 }.goto l.1 (.waits c))
  | .go, .waits c =>
    some (if s.word = 2 then { s with sleeping := s.sleeping ++ [l.1] }.goto l.1 (.parked c)
      else s.goto l.1 (.swaps c))
  | .go, .adds => some ({ s with owner := some l.1 }.goto l.1 .outside)
  | .go, .releases => some (release s l.1)
  | .go, .drops =>
    some ({ s with word := 0, held := s.held.erase l.1 }.goto l.1
      (if s.word = 2 then .wakes else .outside))
  | .go, .wakes => some ((wakeOne s).goto l.1 .outside)
  | .timeout, .waits .timedlock | .timeout, .parked .timedlock => some (leaveWait s l.1 .outside)
  | .spurious, .parked c => some (leaveWait s l.1 (.swaps c))
  | _, _ => none

end Steps

def Act.starts : Act → Bool
  | .start _ => true
  | _ => false

def Pc.initialising : Pc → Bool
  | .inits _ | .clears _ => true
  | _ => false

/-- The calls do not race with the initialisation of a static mutex. -/
def InitAlone (s : State θ) (l : θ × Act) : Prop :=
  l.2.starts = true → s.sig = .static ∨ (∃ u, (s.pc u).initialising = true) →
    ∀ u, u ≠ l.1 → s.pc u = .outside

instance InitAlone.decidable [Fintype θ] [DecidableEq θ] (s : State θ) (l : θ × Act) :
    Decidable (InitAlone s l) :=
  inferInstanceAs (Decidable (_ → _ → ∀ u, u ≠ l.1 → s.pc u = .outside))

/-- Besides, no thread locks a recursive mutex so often that the count overflows. -/
def Orderly (s : State θ) (l : θ × Act) : Prop := InitAlone s l ∧ s.count < 2 ^ 31 - 1

instance Orderly.decidable [Fintype θ] [DecidableEq θ] (s : State θ) (l : θ × Act) :
    Decidable (Orderly s l) :=
  inferInstanceAs (Decidable (_ ∧ _))

def Pc.hasWake : Pc → Bool
  | .wakes | .swaps _ => true
  | _ => false

/-- At most one thread holds the mutex; while a thread is parked and the mutex is free, a
wake is on its way. -/
structure Sound (s : State θ) : Prop where
  excludes : ∀ t ∈ s.held, ∀ u ∈ s.held, t = u
  wakes : ∀ t c, s.pc t = .parked c → s.word = 0 → ∃ u, (s.pc u).hasWake = true

def Pc.asleep : Pc → Bool
  | .parked _ => true
  | _ => false

structure Ready (s : State θ) : Prop where
  sig : s.sig = .ready
  past : ∀ t, (s.pc t).initialising = false
  free : s.word = 0 → s.held = []
  taken : s.word ≠ 0 → ∃ t, s.held = List.replicate (s.count.toNat + 1) t
  adds : ∀ t, s.pc t = .adds → s.held = [t] ∧ s.owner = none
  drops : ∀ t, s.pc t = .drops → s.held = [t] ∧ s.owner = none
  owner : ∀ t, s.owner = some t → s.held = List.replicate (s.count.toNat + 1) t
  asleep : ∀ t, t ∈ s.sleeping ↔ (s.pc t).asleep = true
  once : s.sleeping.Nodup
  due : s.sleeping ≠ [] → s.word = 2 ∨ ∃ u, (s.pc u).hasWake = true
  depth : 0 ≤ s.count
  single : s.owner = none ∨ s.kind ≠ .recursive → s.count = 0

structure Fresh (s : State θ) (t : θ) : Prop where
  word : s.word = 0
  count : s.count = 0
  held : s.held = []
  owner : s.owner = none
  sleeping : s.sleeping = []
  others : ∀ u, u ≠ t → s.pc u = .outside
  own : s.sig = .static ∧ (s.pc t = .outside ∨ ∃ c, s.pc t = .inits c) ∨
    s.sig = .ready ∧ ∃ c, s.pc t = .clears c

def Inv (s : State θ) : Prop := Ready s ∨ ∃ t, Fresh s t

variable {s s' : State θ} {pc : Pc} {c : Call}

theorem Ready.owner_eq_none (h : Ready s) (hheld : s.held = []) : s.owner = none :=
  Option.eq_none_iff_forall_ne_some.mpr fun t ht => by simp [h.owner t ht] at hheld

theorem Ready.sound (h : Ready s) : Sound s where
  excludes t ht u hu := by
    by_cases hw : s.word = 0
    · simp [h.free hw] at ht
    · obtain ⟨v, hheld⟩ := h.taken hw
      rw [hheld] at ht hu
      exact (List.eq_of_mem_replicate ht).trans (List.eq_of_mem_replicate hu).symm
  wakes t c ht hw := by
    have hin : t ∈ s.sleeping := (h.asleep t).mpr (by rw [ht]; rfl)
    rcases h.due (List.ne_nil_of_mem hin) with h2 | hex
    · omega
    · exact hex

theorem Fresh.sound (h : Fresh s t) : Sound s where
  excludes := by simp [h.held]
  wakes u c hu _ := by
    by_cases hut : u = t
    · subst hut
      have := h.own
      simp [hu] at this
    · simp [h.others u hut] at hu

theorem enter_cases (kind : Kind) (c : Call) :
    (enter kind c).initialising = false ∧ (enter kind c).asleep = false ∧
      enter kind c ≠ .adds ∧ enter kind c ≠ .drops ∧ (enter kind c).hasWake = false := by
  cases kind <;> cases c <;> decide

/-- The owner of a recursive mutex locks or unlocks it once more. -/
theorem Ready.recount {count : ℤ} (h : Ready s) (howner : s.owner = some t)
    (hkind : s.kind = .recursive) (hcount : 0 ≤ count) :
    Ready { s with count := count, held := List.replicate (count.toNat + 1) t } := by
  have hword : s.word ≠ 0 := fun hw => by
    have hheld := h.owner t howner
    simp [h.free hw, List.replicate_succ] at hheld
  refine ⟨h.sig, h.past, fun hw => absurd hw hword, fun _ => ⟨t, rfl⟩, ?_, ?_, ?_, h.asleep, h.once,
    h.due, hcount, by simp [howner, hkind]⟩ <;> dsimp only
  · exact fun u hu => absurd ((h.adds u hu).2.symm.trans howner) (by simp)
  · exact fun u hu => absurd ((h.drops u hu).2.symm.trans howner) (by simp)
  · rintro u hu
    cases hu.symm.trans howner
    rfl

section Keep

variable [DecidableEq θ]

theorem exists_hasWake {f : θ → Pc} (ht : (f t).hasWake = false) (h : ∃ u, (f u).hasWake = true) :
    ∃ u, (Function.update f t pc u).hasWake = true := by
  obtain ⟨u, hu⟩ := h
  refine ⟨u, ?_⟩
  rwa [Function.update_of_ne]
  rintro rfl
  simp [ht] at hu

theorem Ready.places (h : Ready s) (t : θ) (hi : pc.initialising = false) (ha : pc ≠ .adds)
    (hd : pc ≠ .drops) (u : θ) :
    (Function.update s.pc t pc u).initialising = false ∧
      (Function.update s.pc t pc u = .adds → s.held = [u] ∧ s.owner = none) ∧
      (Function.update s.pc t pc u = .drops → s.held = [u] ∧ s.owner = none) := by
  by_cases hu : u = t
  · rw [hu, Function.update_self]
    exact ⟨hi, fun h => absurd h ha, fun h => absurd h hd⟩
  · rw [Function.update_of_ne hu]
    exact ⟨h.past u, h.adds u, h.drops u⟩

theorem Ready.goto (h : Ready s) (hi : pc.initialising = false)
    (hs : pc.asleep = (s.pc t).asleep) (ha : pc ≠ .adds) (hd : pc ≠ .drops)
    (hw : (s.pc t).hasWake = false) : Ready (s.goto t pc) := by
  have hpc := h.places t hi ha hd
  refine ⟨h.sig, fun u => (hpc u).1, h.free, h.taken, fun u => (hpc u).2.1, fun u => (hpc u).2.2,
    h.owner, ?_, h.once, ?_, h.depth, h.single⟩ <;> dsimp only [State.goto]
  · grind [h.asleep, Function.update_apply]
  · exact fun hne => (h.due hne).imp_right (exists_hasWake hw)

theorem Ready.acquire (h : Ready s) {word : ℕ} (hw : s.word = 0) (h0 : word ≠ 0)
    (hs : (s.pc t).asleep = false) (hwake : (s.pc t).hasWake = true → word = 2) :
    Ready (acquire s t word) := by
  have hheld := h.free hw
  have hnone := h.owner_eq_none hheld
  refine ⟨h.sig, ?_, fun h => absurd h h0,
    fun _ => ⟨t, by simp [Mutex.acquire, State.goto, hheld, h.single (.inl hnone)]⟩, ?_,
    ?_, ?_, ?_, h.once, ?_, h.depth, h.single⟩ <;> dsimp only [Mutex.acquire, State.goto]
  · grind [h.past, Pc.initialising, Function.update_apply]
  · grind [h.adds, Function.update_apply]
  · grind [h.drops, Function.update_apply]
  · grind [h.owner]
  · grind [h.asleep, Pc.asleep, Function.update_apply]
  · intro hne
    rcases h.due hne with h2 | ⟨u, hu⟩
    · omega
    · by_cases hut : u = t
      · exact .inl (hwake (hut ▸ hu))
      · exact .inr ⟨u, by rwa [Function.update_of_ne hut]⟩

theorem Ready.add (h : Ready s) (ht : s.pc t = .adds) :
    Ready ({ s with owner := some t }.goto t .outside) := by
  obtain ⟨hheld, hnone⟩ := h.adds t ht
  have hcount := h.single (.inl hnone)
  refine ⟨h.sig, ?_, h.free, h.taken, ?_, ?_, ?_, ?_, h.once, ?_, h.depth, fun _ => hcount⟩ <;>
    dsimp only [State.goto]
  · grind [h.past, Pc.initialising, Function.update_apply]
  · intro u hu
    have := h.adds u
    grind [Function.update_apply]
  · intro u hu
    have := h.drops u
    grind [Function.update_apply]
  · rintro u ⟨⟩
    simp [hheld, hcount]
  · grind [h.asleep, Pc.asleep, Function.update_apply]
  · exact fun hne => (h.due hne).imp_right (exists_hasWake (by rw [ht]; rfl))

theorem Ready.relock (h : Ready s) (ht : s.pc t = .checks c) (howner : s.owner = some t)
    (hkind : s.kind = .recursive) (hlt : s.count < 2 ^ 31 - 1) :
    Ready ({ s with count := toInt32 (s.count + 1), held := t :: s.held }.goto t .outside) := by
  have hdepth := h.depth
  have hcount : toInt32 (s.count + 1) = s.count + 1 := toInt32_of_range (by omega) (by omega)
  have hnat : (s.count + 1).toNat + 1 = s.count.toNat + 1 + 1 := by omega
  have hheld : t :: s.held = List.replicate ((s.count + 1).toNat + 1) t := by
    rw [h.owner t howner, hnat]
    exact List.replicate_succ.symm
  rw [hcount, hheld]
  exact (h.recount howner hkind (by omega)).goto rfl (by rw [ht]; rfl) (by simp) (by simp)
    (by rw [ht]; rfl)

theorem Ready.unlock (h : Ready s) (ht : s.pc t = .releases) (howner : s.owner = some t)
    (hkind : s.kind = .recursive) (hpos : 0 < s.count) (hlt : s.count < 2 ^ 31 - 1) :
    Ready ({ s with
      count := toInt32 (s.count - 1), held := s.held.erase t }.goto t .outside) := by
  have hdepth := h.depth
  have hcount : toInt32 (s.count - 1) = s.count - 1 := toInt32_of_range (by omega) (by omega)
  have hnat : s.count.toNat + 1 = (s.count - 1).toNat + 1 + 1 := by omega
  have hheld : s.held.erase t = List.replicate ((s.count - 1).toNat + 1) t := by
    rw [h.owner t howner, hnat, List.replicate_succ, List.erase_cons_head]
  rw [hcount, hheld]
  exact (h.recount howner hkind (by omega)).goto rfl (by rw [ht]; rfl) (by simp) (by simp)
    (by rw [ht]; rfl)

theorem Ready.release (h : Ready s) (ht : s.pc t = .releases) (hlt : s.count < 2 ^ 31 - 1) :
    Ready (release s t) := by
  unfold Mutex.release
  split
  · exact h.goto rfl (by rw [ht]; rfl) (by simp) (by simp) (by rw [ht]; rfl)
  · next howner =>
    have howner : s.owner = some t := by simpa using howner
    split
    · next hrec => exact h.unlock ht howner hrec.1 hrec.2 hlt
    · next hlast =>
      have hcount : s.count = 0 := by
        have := h.depth
        have := h.single
        grind
      have hheld : s.held = [t] := by simpa [hcount] using h.owner t howner
      refine ⟨h.sig, ?_, h.free, fun _ => ⟨t, by simp [State.goto, hheld]⟩, ?_, ?_,
        by simp [State.goto], ?_, h.once, ?_, le_rfl, fun _ => rfl⟩ <;> dsimp only [State.goto]
      · grind [h.past, Pc.initialising, Function.update_apply]
      · grind [h.adds, Function.update_apply]
      · grind [h.drops, Function.update_apply]
      · grind [h.asleep, Pc.asleep, Function.update_apply]
      · exact fun hne => (h.due hne).imp_right (exists_hasWake (by rw [ht]; rfl))

theorem Ready.drop (h : Ready s) (ht : s.pc t = .drops) :
    Ready ({ s with word := 0, held := s.held.erase t }.goto t
      (if s.word = 2 then .wakes else .outside)) := by
  obtain ⟨hheld, hnone⟩ := h.drops t ht
  refine ⟨h.sig, ?_, ?_, ?_, ?_, ?_, ?_, ?_, h.once, ?_, h.depth, h.single⟩ <;> dsimp only [State.goto]
  · grind [h.past, Pc.initialising, Function.update_apply]
  · simp [hheld]
  · simp
  · grind [h.adds, Function.update_apply]
  · grind [h.drops, Function.update_apply]
  · simp [hnone]
  · grind [h.asleep, Pc.asleep, Function.update_apply]
  · intro hne
    right
    by_cases h2 : s.word = 2
    · exact ⟨t, by simp [h2, Pc.hasWake]⟩
    · exact exists_hasWake (by rw [ht]; rfl) ((h.due hne).resolve_left h2)

theorem Ready.park (h : Ready s) (ht : s.pc t = .waits c) (hw : s.word = 2) :
    Ready ({ s with sleeping := s.sleeping ++ [t] }.goto t (.parked c)) := by
  have hnot : t ∉ s.sleeping := by simp [h.asleep, ht, Pc.asleep]
  have hpc := h.places t (show (Pc.parked c).initialising = false from rfl) (by simp) (by simp)
  refine ⟨h.sig, fun u => (hpc u).1, h.free, h.taken, fun u => (hpc u).2.1, fun u => (hpc u).2.2,
    h.owner, ?_, ?_, fun _ => .inl hw, h.depth, h.single⟩ <;> dsimp only [State.goto]
  · grind [h.asleep, Pc.asleep, Function.update_apply]
  · exact List.nodup_append.mpr ⟨h.once, by simp, by grind⟩

theorem Ready.leaveWait (h : Ready s) (hwake : (s.pc t).hasWake = false)
    (hi : pc.initialising = false) (ha : pc ≠ .adds) (hd : pc ≠ .drops) (hs : pc.asleep = false) :
    Ready (leaveWait s t pc) := by
  have hpc := h.places t hi ha hd
  refine ⟨h.sig, fun u => (hpc u).1, h.free, h.taken, fun u => (hpc u).2.1, fun u => (hpc u).2.2,
    h.owner, ?_, h.once.erase t, ?_, h.depth, h.single⟩ <;> dsimp only [Mutex.leaveWait, State.goto]
  · grind [h.asleep, h.once.mem_erase_iff, Function.update_apply]
  · intro hne
    have hne' : s.sleeping ≠ [] := fun h0 => hne (by simp [h0])
    exact (h.due hne').imp_right (exists_hasWake hwake)

theorem Ready.wake (h : Ready s) (ht : s.pc t = .wakes) : Ready ((wakeOne s).goto t .outside) := by
  unfold wakeOne
  split
  · next hnil =>
    have hpc := h.places t (show Pc.outside.initialising = false from rfl) (by simp) (by simp)
    refine ⟨h.sig, fun u => (hpc u).1, h.free, h.taken, fun u => (hpc u).2.1, fun u => (hpc u).2.2,
      h.owner, ?_, h.once, fun hne => absurd hnil hne, h.depth, h.single⟩
    dsimp only [State.goto]
    grind [h.asleep, Pc.asleep, Function.update_apply]
  · next u rest hsleeping =>
    obtain ⟨c, hu⟩ : ∃ c, s.pc u = .parked c := by
      have := (h.asleep u).mp (by simp [hsleeping])
      cases hs : s.pc u <;> simp [hs, Pc.asleep] at this
      exact ⟨_, rfl⟩
    have hne : u ≠ t := by
      rintro rfl
      simp [ht] at hu
    have honce := h.once
    rw [hsleeping, List.nodup_cons] at honce
    rw [hu]
    refine ⟨h.sig, ?_, h.free, h.taken, ?_, ?_, h.owner, ?_, honce.2, fun _ => .inr ⟨u, ?_⟩,
      h.depth, h.single⟩ <;> dsimp only [State.goto, Pc.unparked]
    · grind [h.past, Pc.initialising, Function.update_apply]
    · grind [h.adds, Function.update_apply]
    · grind [h.drops, Function.update_apply]
    · grind [h.asleep, Pc.asleep, Function.update_apply]
    · simp [hne, Pc.hasWake]

theorem Ready.swap (h : Ready s) (ht : s.pc t = .swaps c) (hw : s.word ≠ 0) :
    Ready ({ s with word := 2 }.goto t (.waits c)) := by
  have hpc := h.places t (show (Pc.waits c).initialising = false from rfl) (by simp) (by simp)
  refine ⟨h.sig, fun u => (hpc u).1, by simp [State.goto], fun _ => h.taken hw,
    fun u => (hpc u).2.1, fun u => (hpc u).2.2, h.owner, ?_, h.once, fun _ => .inl rfl, h.depth, h.single⟩
  dsimp only [State.goto]
  grind [h.asleep, Pc.asleep, Function.update_apply]

theorem Ready.kind_step {l : θ × Act} (h : Ready s) (hs : Mutex.step s l = some s') :
    s'.kind = s.kind := by
  have hpast := h.past l.1
  unfold Mutex.step Mutex.release Mutex.acquire Mutex.wakeOne Mutex.leaveWait at hs
  grind [State.goto, Pc.initialising]

theorem Ready.step {l : θ × Act} (h : Ready s) (hlt : s.count < 2 ^ 31 - 1)
    (hs : Mutex.step s l = some s') : Ready s' := by
  obtain ⟨t, a⟩ := l
  unfold Mutex.step at hs
  dsimp only at hs
  split at hs
  · next c ht =>
    cases hs
    obtain ⟨hi, hsleep, ha, hd, -⟩ := enter_cases s.kind c
    rw [if_neg (by simp [h.sig])]
    exact h.goto hi (by rw [ht, hsleep]; rfl) ha hd (by rw [ht]; rfl)
  · next ht => simpa [ht, Pc.initialising] using h.past t
  · next ht => simpa [ht, Pc.initialising] using h.past t
  · next ht =>
    cases hs
    split
    · next howner =>
      split
      · next hkind => exact h.relock ht howner hkind hlt
      · exact h.goto rfl (by rw [ht]; rfl) (by simp) (by simp) (by rw [ht]; rfl)
    · exact h.goto rfl (by rw [ht]; rfl) (by simp) (by simp) (by rw [ht]; rfl)
  · next ht =>
    cases hs
    split
    · next hw => exact h.acquire hw (by simp) (by rw [ht]; rfl) (by simp [ht, Pc.hasWake])
    · exact h.goto (by grind [Pc.initialising]) (by grind [Pc.asleep]) (by grind) (by grind)
        (by rw [ht]; rfl)
  · next ht =>
    cases hs
    split
    · next hw => exact h.acquire hw (by simp) (by rw [ht]; rfl) (fun _ => rfl)
    · next hw => exact h.swap ht hw
  · next ht =>
    cases hs
    split
    · next hw => exact h.park ht hw
    · exact h.goto rfl (by rw [ht]; rfl) (by simp) (by simp) (by rw [ht]; rfl)
  · next ht =>
    cases hs
    exact h.add ht
  · next ht =>
    cases hs
    exact h.release ht hlt
  · next ht =>
    cases hs
    exact h.drop ht
  · next ht =>
    cases hs
    exact h.wake ht
  · next ht =>
    cases hs
    exact h.leaveWait (by rw [ht]; rfl) rfl (by simp) (by simp) rfl
  · next ht =>
    cases hs
    exact h.leaveWait (by rw [ht]; rfl) rfl (by simp) (by simp) rfl
  · next ht =>
    cases hs
    exact h.leaveWait (by rw [ht]; rfl) rfl (by simp) (by simp) rfl
  · cases hs

theorem Fresh.step {l : θ × Act} (h : Fresh s t) (hg : InitAlone s l)
    (hs : Mutex.step s l = some s') : Inv s' := by
  obtain ⟨u, a⟩ := l
  have hown := h.own
  unfold Mutex.step at hs
  dsimp only at hs
  split at hs
  case h_1 c hu =>
    cases hs
    have halone : ∀ v, v ≠ u → s.pc v = .outside := hg rfl (by grind [Pc.initialising])
    have hstatic : s.sig = .static := by grind
    right
    refine ⟨u, h.word, h.count, h.held, h.owner, h.sleeping, ?_, .inl ⟨hstatic, .inr ⟨c, ?_⟩⟩⟩
    · exact fun v hv => by simp [State.goto, hv, halone v hv]
    · simp [State.goto, hstatic]
  case h_2 c hu =>
    cases hs
    have hut : u = t := by_contra fun hne => by simp [h.others u hne] at hu
    right
    refine ⟨u, h.word, rfl, h.held, rfl, h.sleeping, ?_, .inr ⟨rfl, c, by simp [State.goto]⟩⟩
    exact fun v hv => by simp [State.goto, hv, h.others v (hut ▸ hv)]
  case h_3 c hu =>
    cases hs
    have hut : u = t := by_contra fun hne => by simp [h.others u hne] at hu
    obtain ⟨hi, hsleep, ha, hd, -⟩ := enter_cases s.kind c
    have hpc : ∀ v, Function.update s.pc u (enter s.kind c) v = if v = u then enter s.kind c
        else .outside := fun v => by grind [Function.update_apply, h.others]
    left
    refine ⟨by grind [State.goto], ?_, fun _ => h.held, by simp [State.goto], ?_, ?_, ?_, ?_, ?_,
      ?_, h.count.ge, fun _ => h.count⟩ <;> dsimp only [State.goto]
    · grind [Pc.initialising]
    · grind
    · grind
    · simp [h.owner]
    · grind [h.sleeping, Pc.asleep]
    · simp [h.sleeping]
    · simp [h.sleeping]
  all_goals grind [h.others]

end Keep

theorem Inv.step [DecidableEq θ] (s : State θ) (l : θ × Act) (s' : State θ) (h : Inv s)
    (hg : Orderly s l) (hs : Mutex.step s l = some s') : Inv s' := by
  rcases h with h | ⟨t, h⟩
  · exact .inl (h.step hg.2 hs)
  · exact h.step hg.1 hs

theorem initialised_ready (kind : Kind) : Ready (initialised kind : State θ) := by
  constructor <;> simp [initialised, static, Pc.initialising, Pc.asleep]

theorem static_fresh (t : θ) : Fresh (static : State θ) t := by
  constructor <;> simp [static]

/-- Whether the mutex was initialised by a call or statically, if no call races with the
initialisation and the count does not overflow: it excludes, and a parked thread is woken. -/
theorem mutex_excludes_and_wakes [DecidableEq θ] (s₀ s : State θ) (ls : List (θ × Act))
    (h₀ : s₀ = static ∨ ∃ kind, s₀ = initialised kind) (hg : StepsMeet step Orderly s₀ ls)
    (hrun : runSteps step s₀ ls = some s) : Sound s := by
  have hinit : ls ≠ [] → Inv s₀ := by
    intro hne
    rcases h₀ with rfl | ⟨kind, rfl⟩
    · exact .inr ⟨(ls.head hne).1, static_fresh _⟩
    · exact .inl (initialised_ready kind)
  by_cases hnil : ls = []
  · -- without a thread there is no run but the empty one
    subst hnil
    obtain rfl : s₀ = s := by simpa using hrun
    rcases h₀ with rfl | ⟨kind, rfl⟩
    · exact ⟨by simp [static], by simp [static]⟩
    · exact (initialised_ready kind).sound
  · rcases runSteps_invariant_of_guard Inv.step (hinit hnil) hg hrun with h | ⟨t, h⟩
    · exact h.sound
    · exact h.sound

/-- A thread locks twice and unlocks twice, while another one waits for the mutex. -/
def handoverRun (t u : θ) : List (θ × Act) :=
  [(t, .start .lock), (t, .go), (t, .go), (t, .go), (t, .start .lock), (t, .go),
    (u, .start .lock), (u, .go), (u, .go), (u, .go), (u, .go), (t, .start .unlock), (t, .go)]

def handoverEnd (t u : θ) : List (θ × Act) :=
  [(t, .start .unlock), (t, .go), (t, .go), (t, .go), (u, .go)]

theorem mutex_excludes_and_wakes_handover :
    (∃ s, runSteps step (initialised .recursive) (handoverRun (0 : Fin 2) 1) = some s ∧
      s.held = [0] ∧ s.pc 1 = .parked .lock ∧ Sound s) ∧
    ∃ s, runSteps step (initialised .recursive) (handoverRun (0 : Fin 2) 1 ++ handoverEnd 0 1) =
      some s ∧ s.held = [1] ∧ Sound s :=
  ⟨⟨_, rfl, rfl, rfl, mutex_excludes_and_wakes (initialised .recursive) _
      (handoverRun (0 : Fin 2) 1) (.inr ⟨_, rfl⟩) (by decide) rfl⟩,
    ⟨_, rfl, rfl, mutex_excludes_and_wakes (initialised .recursive) _
      (handoverRun (0 : Fin 2) 1 ++ handoverEnd 0 1) (.inr ⟨_, rfl⟩) (by decide) rfl⟩⟩

/-- Both threads find the mutex not initialised, and `u` clears the word after `t` has taken
it. -/
def staticRun (t u : θ) : List (θ × Act) :=
  [(t, .start .lock), (u, .start .lock), (t, .go), (t, .go), (t, .go), (t, .go), (u, .go), (u, .go),
    (u, .go), (u, .go)]

theorem static_mutex_held_twice :
    ∃ s, runSteps step static (staticRun (0 : Fin 2) 1) = some s ∧ (∀ t, s.pc t = .outside) ∧
      s.held = [1, 0] ∧ ¬Sound s :=
  ⟨_, rfl, by decide, rfl, fun h => absurd (h.excludes 0 (by decide) 1 (by decide)) (by decide)⟩

end Uros.Pthread.Mutex
