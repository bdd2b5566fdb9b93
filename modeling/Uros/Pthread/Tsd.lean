import Mathlib.Data.Fin.Basic
import Mathlib.Logic.Function.Basic
import Uros.Foundation.Transition

/-!
Thread-specific data: keys, the values of the threads, and the destructors at thread exit.

The table of keys is shared; the values are in the descriptors of the threads, where neither
`pthread_key_create` nor `pthread_key_delete` looks.  A descriptor is cleared when a start
routine is given to it, be it new or from the pool.  A thread that exits goes over its values
slot by slot, and its destructors may call the same functions in between.
-/

namespace Uros.Pthread.Tsd

open Uros.Foundation

def keysMax : ℕ := 16

def destructorIterations : ℕ := 4

abbrev Slot := Fin keysMax

structure KeySlot where
  created : Bool
  destructor : Option ℕ
  creation : ℕ

inductive Stage where
  | idle
  | running
  | cleaning (n : ℕ)
  deriving DecidableEq

structure DtorCall where
  value : ℕ
  creation : ℕ
  setUnder : Option ℕ
  deriving DecidableEq

structure State where
  keys : Slot → KeySlot
  tsd : ℕ → Slot → ℕ
  stage : ℕ → Stage
  next : ℕ
  setUnder : ℕ → Slot → Option ℕ
  calls : List DtorCall

inductive Event where
  | keyCreate (destructor : Option ℕ)
  | keyDelete (key : ℕ)
  | setspecific (t key value : ℕ)
  | start (t : ℕ)
  | exit (t : ℕ)
  | cleanup (t : ℕ)

def init : State where
  keys := fun _ => ⟨false, none, 0⟩
  tsd := fun _ _ => 0
  stage := Function.update (fun _ => .idle) 0 .running
  next := 0
  setUnder := fun _ _ => none
  calls := []

def slotOf (key : ℕ) : Option Slot :=
  if h : 1 ≤ key ∧ key ≤ keysMax then some ⟨key - 1, by omega⟩ else none

variable (s : State)

def freeKey : Option Slot := (List.finRange keysMax).find? fun i => !(s.keys i).created

def getspecific (t key : ℕ) : ℕ :=
  match slotOf key with
  | some i => s.tsd t i
  | none => 0

def setKey (i : Slot) (k : KeySlot) : State := { s with keys := Function.update s.keys i k }

def setValue (t : ℕ) (i : Slot) (value : ℕ) : State :=
  { s with tsd := Function.update s.tsd t (Function.update (s.tsd t) i value) }

def setStage (t : ℕ) (stage : Stage) : State :=
  { s with stage := Function.update s.stage t stage }

def cleanSlot (t : ℕ) (i : Slot) : State :=
  if (s.keys i).created && s.tsd t i != 0 then
    { setValue s t i 0 with
      calls :=
        if (s.keys i).destructor.isSome then
          ⟨s.tsd t i, (s.keys i).creation, s.setUnder t i⟩ :: s.calls
        else s.calls }
  else s

def step : Event → Option State
  | .keyCreate destructor =>
    match freeKey s with
    | some i => some { setKey s i ⟨true, destructor, s.next⟩ with next := s.next + 1 }
    | none => some s
  | .keyDelete key =>
    match slotOf key with
    | some i => some (setKey s i { s.keys i with created := false })
    | none => some s
  | .setspecific t key value =>
    if s.stage t = .idle then none
    else
      match slotOf key with
      | some i =>
        if (s.keys i).created then
          some { setValue s t i value with
            setUnder := Function.update s.setUnder t
              (Function.update (s.setUnder t) i (some (s.keys i).creation)) }
        else some s
      | none => some s
  | .start t =>
    if s.stage t = .idle then
      some { setStage s t .running with
        tsd := Function.update s.tsd t fun _ => 0
        setUnder := Function.update s.setUnder t fun _ => none }
    else none
  | .exit t => if s.stage t = .running then some (setStage s t (.cleaning 0)) else none
  | .cleanup t =>
    match s.stage t with
    | .cleaning n =>
      if n < destructorIterations * keysMax then
        some (setStage (cleanSlot s t ⟨n % keysMax, Nat.mod_lt n (by decide)⟩) t
          (.cleaning (n + 1)))
      else some (setStage s t .idle)
    | _ => none

/-- A live key is empty in every thread that has not set it, and every destructor was given a
value of its own key. -/
def Safe : Prop :=
  (∀ t i, s.stage t ≠ .idle → (s.keys i).created = true →
    s.setUnder t i ≠ some (s.keys i).creation → getspecific s t (i + 1) = 0) ∧
    ∀ c ∈ s.calls, c.setUnder = some c.creation

/-- A key is created in a slot only when no thread has a value left in it. -/
def Clean : Event → Prop
  | .keyCreate _ => ∀ i, freeKey s = some i → ∀ t, s.stage t ≠ .idle → s.tsd t i = 0
  | _ => True

variable {s} {s' : State}

theorem slotOf_succ (i : Slot) : slotOf (i + 1) = some i := by
  have hi := i.isLt
  simp only [slotOf, dif_pos (show 1 ≤ i.val + 1 ∧ i.val + 1 ≤ keysMax by omega),
    Nat.add_sub_cancel]

theorem getspecific_succ (t : ℕ) (i : Slot) : getspecific s t (i + 1) = s.tsd t i := by
  rw [getspecific, slotOf_succ]

structure Inv (s : State) : Prop where
  own : ∀ t i, s.stage t ≠ .idle → (s.keys i).created = true → s.tsd t i ≠ 0 →
    s.setUnder t i = some (s.keys i).creation
  calls : ∀ c ∈ s.calls, c.setUnder = some c.creation
  below : ∀ i, (s.keys i).created = true → (s.keys i).creation < s.next
  past : ∀ t i c, s.setUnder t i = some c → c < s.next

theorem Inv.safe (h : Inv s) : Safe s := by
  refine ⟨fun t i hlive hcreated hset => ?_, h.calls⟩
  rw [getspecific_succ]
  by_contra hne
  exact hset (h.own t i hlive hcreated hne)

theorem inv_init : Inv init :=
  ⟨fun _ _ _ h => by simp [init] at h, by simp [init], fun _ h => by simp [init] at h,
    fun _ _ _ h => by simp [init] at h⟩

theorem Inv.setStage (h : Inv s) {t : ℕ} {stage : Stage} (hlive : s.stage t ≠ .idle) :
    Inv (setStage s t stage) := by
  refine ⟨fun u i hu => h.own u i ?_, h.calls, h.below, h.past⟩
  by_cases hut : u = t
  · exact hut ▸ hlive
  · simpa [Tsd.setStage, hut] using hu

theorem Inv.cleanSlot (h : Inv s) {t : ℕ} (hlive : s.stage t ≠ .idle) (i : Slot) :
    Inv (cleanSlot s t i) := by
  unfold Tsd.cleanSlot
  split
  · next htake =>
    simp only [Bool.and_eq_true, bne_iff_ne] at htake
    refine ⟨fun u j hu hcreated hne => h.own u j hu hcreated ?_, ?_, h.below, h.past⟩
    · by_cases hut : u = t
      · subst hut
        by_cases hji : j = i
        · simp [setValue, hji] at hne
        · simpa [setValue, hji] using hne
      · simpa [setValue, hut] using hne
    · intro c hc
      dsimp only at hc
      split at hc
      · rcases List.mem_cons.mp hc with rfl | hc
        · exact h.own t i hlive htake.1 htake.2
        · exact h.calls c hc
      · exact h.calls c hc
  · exact h

theorem Inv.create (h : Inv s) {i : Slot} {destructor : Option ℕ}
    (hclean : ∀ t, s.stage t ≠ .idle → s.tsd t i = 0) :
    Inv { setKey s i ⟨true, destructor, s.next⟩ with next := s.next + 1 } := by
  refine ⟨fun t j hlive hcreated hne => ?_, h.calls, fun j hcreated => ?_,
    fun t j c hc => Nat.lt_succ_of_lt (h.past t j c hc)⟩
  · by_cases hji : j = i
    · exact absurd (hji ▸ hclean t hlive) hne
    · simp only [setKey, Function.update_of_ne hji] at hcreated ⊢
      exact h.own t j hlive hcreated hne
  · by_cases hji : j = i
    · simp [setKey, hji]
    · simp only [setKey, Function.update_of_ne hji] at hcreated ⊢
      exact Nat.lt_succ_of_lt (h.below j hcreated)

theorem Inv.delete (h : Inv s) (i : Slot) :
    Inv (setKey s i { s.keys i with created := false }) := by
  have hold : ∀ j, ((setKey s i { s.keys i with created := false }).keys j).created = true →
      (s.keys j).created = true ∧
        (setKey s i { s.keys i with created := false }).keys j = s.keys j := by
    intro j hj
    by_cases hji : j = i
    · simp [setKey, hji] at hj
    · simp only [setKey, Function.update_of_ne hji] at hj ⊢
      exact ⟨hj, trivial⟩
  refine ⟨fun t j hlive hcreated hne => ?_, h.calls, fun j hcreated => ?_, h.past⟩
  · obtain ⟨hj, heq⟩ := hold j hcreated
    rw [heq]
    exact h.own t j hlive hj hne
  · obtain ⟨hj, heq⟩ := hold j hcreated
    rw [heq]
    exact h.below j hj

theorem Inv.set (h : Inv s) {t : ℕ} {i : Slot} (hcreated : (s.keys i).created = true)
    (value : ℕ) :
    Inv { setValue s t i value with
      setUnder := Function.update s.setUnder t
        (Function.update (s.setUnder t) i (some (s.keys i).creation)) } := by
  refine ⟨fun u j hlive hc hne => ?_, h.calls, h.below, fun u j c hc => ?_⟩
  · by_cases hut : u = t
    · subst hut
      by_cases hji : j = i
      · simp [setValue, hji]
      · simp only [setValue, Function.update_self, Function.update_of_ne hji] at hne ⊢
        exact h.own u j hlive hc hne
    · simp only [setValue, Function.update_of_ne hut] at hne ⊢
      exact h.own u j hlive hc hne
  · by_cases hut : u = t
    · subst hut
      by_cases hji : j = i
      · simp only [hji, Function.update_self, Option.some.injEq] at hc
        exact hc ▸ h.below i hcreated
      · simp only [Function.update_self, Function.update_of_ne hji] at hc
        exact h.past u j c hc
    · simp only [Function.update_of_ne hut] at hc
      exact h.past u j c hc

theorem Inv.start (h : Inv s) (t : ℕ) :
    Inv { Tsd.setStage s t .running with
      tsd := Function.update s.tsd t fun _ => 0
      setUnder := Function.update s.setUnder t fun _ => none } := by
  refine ⟨fun u i hlive hcreated hne => ?_, h.calls, h.below, fun u i c hc => ?_⟩
  · by_cases hut : u = t
    · simp [hut] at hne
    · simp only [Tsd.setStage, Function.update_of_ne hut] at hlive hne ⊢
      exact h.own u i hlive hcreated hne
  · by_cases hut : u = t
    · simp [hut] at hc
    · simp only [Function.update_of_ne hut] at hc
      exact h.past u i c hc

theorem Inv.step (h : Inv s) {e : Event} (hclean : Clean s e) (hstep : step s e = some s') :
    Inv s' := by
  cases e with
  | keyCreate destructor =>
    simp only [Tsd.step] at hstep
    split at hstep
    · next i hfree =>
      cases hstep
      exact h.create (hclean i hfree)
    · cases hstep
      exact h
  | keyDelete key =>
    simp only [Tsd.step] at hstep
    split at hstep
    · cases hstep
      exact h.delete _
    · cases hstep
      exact h
  | setspecific t key value =>
    simp only [Tsd.step] at hstep
    split at hstep
    · cases hstep
    · split at hstep
      · split at hstep
        · next hcreated =>
          cases hstep
          exact h.set hcreated value
        · cases hstep
          exact h
      · cases hstep
        exact h
  | start t =>
    obtain ⟨-, hstep⟩ := Option.ite_none_right_eq_some.mp hstep
    cases hstep
    exact h.start t
  | exit t =>
    obtain ⟨hrun, hstep⟩ := Option.ite_none_right_eq_some.mp hstep
    cases hstep
    exact h.setStage (by simp [hrun])
  | cleanup t =>
    simp only [Tsd.step] at hstep
    split at hstep
    · next n hstage =>
      have hlive : s.stage t ≠ .idle := by simp [hstage]
      split at hstep
      · cases hstep
        refine (h.cleanSlot hlive _).setStage ?_
        unfold Tsd.cleanSlot
        split <;> exact hlive
      · cases hstep
        exact h.setStage hlive
    · cases hstep

theorem Inv.clean_of_safe (h : Inv s) {e : Event}
    (hsafe : ∀ s', Tsd.step s e = some s' → Safe s') : Clean s e := by
  cases e with
  | keyCreate destructor =>
    intro i hfree t hlive
    have hnext : Tsd.step s (.keyCreate destructor) =
        some { setKey s i ⟨true, destructor, s.next⟩ with next := s.next + 1 } := by
      simp only [Tsd.step, hfree]
    rw [← getspecific_succ]
    refine (hsafe _ hnext).1 t i hlive (by simp [setKey]) fun hset => ?_
    simp only [setKey, Function.update_self] at hset
    exact absurd (h.past t i _ hset) (Nat.lt_irrefl _)
  | _ => trivial

/-- Over any sequence of calls and exits the keys stay safe exactly if every key is created in a
slot that no thread has a value in. -/
theorem tsd_safe_iff (events : List Event) :
    StepsMeet step (fun s e => ∀ s', step s e = some s' → Safe s') init events ↔
      StepsMeet step Clean init events := by
  have hrun : ∀ s, Inv s →
      (StepsMeet step (fun s e => ∀ s', step s e = some s' → Safe s') s events ↔
        StepsMeet step Clean s events) := by
    induction events with
    | nil => exact fun _ _ => Iff.rfl
    | cons e events ih =>
      intro s hs
      constructor
      · rintro ⟨hsafe, hrest⟩
        have hclean := hs.clean_of_safe hsafe
        exact ⟨hclean, fun s' hs' => (ih s' (hs.step hclean hs')).mp (hrest s' hs')⟩
      · rintro ⟨hclean, hrest⟩
        exact ⟨fun s' hs' => (hs.step hclean hs').safe,
          fun s' hs' => (ih s' (hs.step hclean hs')).mpr (hrest s' hs')⟩
  exact hrun init inv_init

/-- The second key gets the slot, and with it the value, of the first; at the exit of the thread
its destructor is called with that value. -/
theorem tsd_stale :
    ∃ s, runSteps step init [.keyCreate (some 1), .setspecific 0 1 5, .keyDelete 1,
        .keyCreate (some 2), .exit 0, .cleanup 0] = some s ∧
      s.calls = [⟨5, 1, some 0⟩] ∧ ¬Safe s ∧
      ∃ s₁, runSteps step init [.keyCreate (some 1), .setspecific 0 1 5, .keyDelete 1,
        .keyCreate (some 2)] = some s₁ ∧ getspecific s₁ 0 1 = 5 ∧ ¬Safe s₁ := by
  refine ⟨_, rfl, rfl, fun h => ?_, _, rfl, rfl, fun h => ?_⟩
  · exact absurd (h.2 _ (List.mem_singleton.mpr rfl)) (by decide)
  · exact absurd (h.1 0 ⟨0, by decide⟩ (by decide) rfl (by decide)) (by decide)

end Uros.Pthread.Tsd
