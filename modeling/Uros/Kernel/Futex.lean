import Mathlib.Algebra.Ring.Nat
import Uros.Foundation.Transition
import Mathlib.Data.List.Basic
import Mathlib.Logic.Function.Basic

/-!
Futexes of the kernel: `urmach_futex` on the scheduler's wait queues.

A thread waits under a 32-bit event that mixes what identifies the word: the address space
and the address for a private word, the VM object and the offset for a shared one.  A wake
computes the event again and takes the first thread in the queue of that event.

Everything that the kernel does with the words in between (page faults, timeouts, other
sleepers) is a step of its own.
-/

namespace Uros.Kernel

open Uros.Foundation

structure MapEntry where
  start : UInt32
  stop : UInt32
  object : Option UInt32
  offset : UInt32
  isSubMap : Bool
  deriving DecidableEq

def MapEntry.contains (e : MapEntry) (vaddr : UInt32) : Bool := e.start ≤ vaddr && vaddr < e.stop

abbrev Maps := UInt32 → List MapEntry

structure Word where
  map : UInt32
  vaddr : UInt32
  isPrivate : Bool
  deriving DecidableEq

inductive Loc where
  | task (map vaddr : UInt32)
  | object (object offset : UInt32)
  deriving DecidableEq

def lookupEntry (maps : Maps) (u : Word) : Option MapEntry :=
  (maps u.map).find? (·.contains u.vaddr)

def loc (maps : Maps) (u : Word) : Loc :=
  if u.isPrivate then .task u.map u.vaddr
  else
    match lookupEntry maps u with
    | none => .task u.map u.vaddr
    | some e =>
      if e.isSubMap then .task u.map u.vaddr
      else
        match e.object with
        | none => .task u.map u.vaddr
        | some obj => .object obj (e.offset + (u.vaddr - e.start))

def futexCombine (a b : UInt32) : UInt32 :=
  let h : UInt32 := a * 2654435761
  let h := h ^^^ (b + 0x9e3779b9 + h <<< (6 : UInt32) + h >>> (2 : UInt32))
  if h = 0 then 0x9e3779b9 else h

def Loc.key : Loc → UInt32
  | task map vaddr => futexCombine map vaddr
  | object obj offset => futexCombine obj offset

def futexKey (maps : Maps) (u : Word) : UInt32 := (loc maps u).key

def touch (maps : Maps) (u : Word) (object : UInt32) : Maps :=
  Function.update maps u.map ((maps u.map).map fun e =>
    if e.contains u.vaddr ∧ e.object = none ∧ e.isSubMap = false then
      { e with object := some object, offset := 0 }
    else e)

def waitHash (event : UInt32) : Fin 59 :=
  Fin.ofNat 59 (if event.toNat < 2 ^ 31 then event.toNat else 2 ^ 32 - 1 - event.toNat)

structure Waiter where
  thread : ℕ
  event : UInt32
  word : Option Word
  deriving DecidableEq

structure FutexState where
  maps : Maps
  waitQueue : Fin 59 → List Waiter
  futexv : List (UInt32 × List UInt32)

def futexvMaxWaiters : ℕ := 16

namespace FutexState

variable (s : FutexState)

def setQueue (i : Fin 59) (q : List Waiter) : FutexState :=
  { s with waitQueue := Function.update s.waitQueue i q }

def assertWait (w : Waiter) : FutexState :=
  s.setQueue (waitHash w.event) (s.waitQueue (waitHash w.event) ++ [w])

def wakeupOne (event : UInt32) : List Waiter × FutexState :=
  let q := s.waitQueue (waitHash event)
  ((q.find? (·.event == event)).toList,
    s.setQueue (waitHash event) (q.eraseP (·.event == event)))

def wakeupAll (event : UInt32) : List Waiter × FutexState :=
  let q := s.waitQueue (waitHash event)
  (q.filter (·.event == event), s.setQueue (waitHash event) (q.filter (·.event != event)))

def wakeSlots (s : FutexState) : List UInt32 → List Waiter × FutexState
  | [] => ([], s)
  | slot :: slots =>
    let r := s.wakeupOne slot
    let rest := r.2.wakeSlots slots
    (r.1 ++ rest.1, rest.2)

def futexvWakeKey (key : UInt32) : List Waiter × FutexState :=
  s.wakeSlots ((s.futexv.filter fun slot => slot.2.contains key).map Prod.fst)

def futexWake (u : Word) (nwake : ℕ) : List Waiter × FutexState :=
  let key := futexKey s.maps u
  let r := s.futexvWakeKey key
  let last := if nwake = 1 then r.2.wakeupOne key else r.2.wakeupAll key
  (r.1 ++ last.1, last.2)

/-- `futex_wait` until the thread is on the wait queue.  The key is computed first; the
`copyin` after it, which succeeds when `readable`, may bring the object into being. -/
def futexWait (thread : ℕ) (u : Word) (object : UInt32) (readable : Bool) : FutexState :=
  if (lookupEntry s.maps u).isSome ∧ readable then
    { s with maps := touch s.maps u object }.assertWait ⟨thread, futexKey s.maps u, some u⟩
  else s

def futexvKeys : List (Word × UInt32) → Maps → List UInt32 × Maps
  | [], maps => ([], maps)
  | (u, object) :: us, maps =>
    let rest := futexvKeys us (touch maps u object)
    (futexKey maps u :: rest.1, rest.2)

/-- `futex_waitv` until the thread is parked on its slot; `us` ends with the first word that
cannot be read. -/
def futexWaitv (thread : ℕ) (us : List (Word × UInt32)) (slot : UInt32) (readable : Bool) :
    FutexState :=
  let keys := futexvKeys us s.maps
  let s := { s with maps := keys.2 }
  if readable ∧ s.futexv.length < futexvMaxWaiters then
    { s with futexv := s.futexv ++ [(slot, keys.1)] }.assertWait ⟨thread, slot, none⟩
  else s

def clearWait (thread : ℕ) : FutexState :=
  { s with waitQueue := fun i => (s.waitQueue i).filter (·.thread != thread) }

end FutexState

/-- What happens in the kernel.  `WAKE_WAIT` is a `wait` and a `wake`; `sleep` and `wakeup` are
the other users of the wait queues, and `vm` is what tasks do to their address spaces. -/
inductive FutexEvent where
  | wait (thread : ℕ) (u : Word) (object : UInt32) (readable : Bool)
  | waitv (thread : ℕ) (us : List (Word × UInt32)) (slot : UInt32) (readable : Bool)
  | unregister (slot : UInt32)
  | wake (u : Word) (nwake : ℕ)
  | sleep (thread : ℕ) (event : UInt32)
  | wakeup (event : UInt32)
  | clearWait (thread : ℕ)
  | vm (maps : Maps)

def FutexState.step (s : FutexState) : FutexEvent → Option FutexState
  | .wait thread u object readable => some (s.futexWait thread u object readable)
  | .waitv thread us slot readable => some (s.futexWaitv thread us slot readable)
  | .unregister slot => some { s with futexv := s.futexv.filter (·.1 != slot) }
  | .wake u nwake => some (s.futexWake u nwake).2
  | .sleep thread event => some (s.assertWait ⟨thread, event, none⟩)
  | .wakeup event => some (s.wakeupAll event).2
  | .clearWait thread => some (s.clearWait thread)
  | .vm maps => some { s with maps }

namespace FutexState

def start (maps : Maps) : FutexState := ⟨maps, fun _ => [], []⟩

def Parked (s : FutexState) (w : Waiter) : Prop := w ∈ s.waitQueue (waitHash w.event)

def On (maps : Maps) (u : Word) (w : Waiter) : Prop := ∃ v ∈ w.word, loc maps v = loc maps u

def Settled (maps : Maps) (u : Word) : Prop :=
  u.isPrivate = true ∨ ∀ e ∈ lookupEntry maps u, e.isSubMap = true ∨ e.object ≠ none

def Foreign (s : FutexState) (event : UInt32) : Prop :=
  ∀ w ∈ s.waitQueue (waitHash event), w.event = event → w.word = none

def Apart (s : FutexState) : FutexEvent → Prop
  | .wait _ u _ _ => Settled s.maps u ∧
      ∀ w ∈ s.waitQueue (waitHash (futexKey s.maps u)), w.event = futexKey s.maps u →
        On s.maps u w
  | .waitv _ _ slot _ => s.Foreign slot
  | .sleep _ event => s.Foreign event
  | .vm maps => ∀ i, ∀ w ∈ s.waitQueue i, ∀ v ∈ w.word,
      Settled maps v ∧ loc maps v = loc s.maps v
  | _ => True

instance decidableOn (maps : Maps) (u : Word) (w : Waiter) : Decidable (On maps u w) :=
  inferInstanceAs (Decidable (∃ v ∈ w.word, loc maps v = loc maps u))

instance decidableSettled (maps : Maps) (u : Word) : Decidable (Settled maps u) :=
  inferInstanceAs (Decidable (_ ∨ _))

instance decidableForeign (s : FutexState) (event : UInt32) : Decidable (s.Foreign event) :=
  inferInstanceAs (Decidable (∀ w ∈ _, _))

instance decidableApart (s : FutexState) : DecidablePred s.Apart
  | .wait .. => inferInstanceAs (Decidable (_ ∧ ∀ w ∈ _, _))
  | .waitv .. => inferInstanceAs (Decidable (s.Foreign _))
  | .sleep .. => inferInstanceAs (Decidable (s.Foreign _))
  | .vm _ => inferInstanceAs (Decidable (∀ i, ∀ w ∈ s.waitQueue i, ∀ v ∈ w.word, _))
  | .unregister _ | .wake .. | .wakeup _ | .clearWait _ => inferInstanceAs (Decidable True)

theorem lookupEntry_touch (maps : Maps) (u v : Word) (object : UInt32) (hv : Settled maps v) :
    v.isPrivate = true ∨ lookupEntry (touch maps u object) v = lookupEntry maps v := by
  rcases hv with hprivate | hsettled
  · exact .inl hprivate
  · right
    unfold lookupEntry touch
    by_cases hmap : v.map = u.map
    · rw [hmap, Function.update_self, ← hmap, List.find?_map]
      -- the entry found for `v` has its object, so that the touch passes it by
      cases hfind : (maps v.map).find? (·.contains v.vaddr) with
      | none =>
        simp only [Option.map_eq_none_iff, List.find?_eq_none] at hfind ⊢
        intro e he
        have := hfind e he
        simp only [Function.comp_apply]
        split
        · exact this
        · exact this
      | some e =>
        have hpred : ((fun x : MapEntry => x.contains v.vaddr) ∘ fun e : MapEntry =>
            if e.contains u.vaddr ∧ e.object = none ∧ e.isSubMap = false then
              { e with object := some object, offset := 0 } else e) =
            fun x => x.contains v.vaddr := by
          funext x
          simp only [Function.comp_apply]
          split
          · rfl
          · rfl
        rw [hpred, hfind, Option.map_some, if_neg]
        rintro ⟨-, hnone, hsub⟩
        rcases hsettled e (by simpa [lookupEntry] using hfind) with h | h
        · simp [hsub] at h
        · exact h hnone
    · rw [Function.update_of_ne hmap]

theorem loc_touch {maps : Maps} {v : Word} (u : Word) (object : UInt32) (hv : Settled maps v) :
    loc (touch maps u object) v = loc maps v := by
  rcases lookupEntry_touch maps u v object hv with h | h
  · simp only [loc, h, if_true]
  · simp only [loc, h]

theorem settled_touch {maps : Maps} {v : Word} (u : Word) (object : UInt32)
    (hv : Settled maps v) : Settled (touch maps u object) v := by
  rcases lookupEntry_touch maps u v object hv with h | h
  · exact .inl h
  · unfold Settled
    rw [h]
    exact hv

theorem futexvKeys_keeps {maps : Maps} {v : Word} (us : List (Word × UInt32))
    (hv : Settled maps v) :
    Settled (futexvKeys us maps).2 v ∧ loc (futexvKeys us maps).2 v = loc maps v := by
  induction us generalizing maps with
  | nil => exact ⟨hv, rfl⟩
  | cons u us ih =>
    have hrest := ih (settled_touch u.1 u.2 hv)
    exact ⟨hrest.1, hrest.2.trans (loc_touch u.1 u.2 hv)⟩

structure Inv (s : FutexState) : Prop where
  keyed : ∀ w, s.Parked w → ∀ u ∈ w.word, Settled s.maps u ∧ w.event = futexKey s.maps u
  shared : ∀ w w', s.Parked w → s.Parked w' → w.event = w'.event →
    ∀ u ∈ w.word, On s.maps u w'

variable {s s' : FutexState}

theorem Inv.of_fewer (hi : s.Inv) (hmaps : s'.maps = s.maps)
    (hparked : ∀ w, s'.Parked w → s.Parked w) : s'.Inv where
  keyed w hw u hu := by
    rw [hmaps]
    exact hi.keyed w (hparked w hw) u hu
  shared w w' hw hw' heq u hu := by
    rw [hmaps]
    exact hi.shared w w' (hparked w hw) (hparked w' hw') heq u hu

theorem Inv.of_maps (hi : s.Inv) {maps : Maps}
    (hkeep : ∀ w, s.Parked w → ∀ u ∈ w.word, Settled maps u ∧ loc maps u = loc s.maps u) :
    { s with maps }.Inv where
  keyed w hw u hu := by
    obtain ⟨hsettled, hloc⟩ := hkeep w hw u hu
    refine ⟨hsettled, ?_⟩
    rw [(hi.keyed w hw u hu).2, futexKey, futexKey, hloc]
  shared w w' hw hw' heq u hu := by
    obtain ⟨v, hv, hloc⟩ := hi.shared w w' hw hw' heq u hu
    refine ⟨v, hv, ?_⟩
    rw [(hkeep w' hw' v hv).2, (hkeep w hw u hu).2, hloc]

theorem parked_setQueue {i : Fin 59} {q : List Waiter} {w : Waiter} :
    (s.setQueue i q).Parked w ↔
      (waitHash w.event = i ∧ w ∈ q) ∨ (waitHash w.event ≠ i ∧ s.Parked w) := by
  unfold Parked setQueue
  dsimp only
  by_cases h : waitHash w.event = i
  · simp [h]
  · simp [h]

theorem parked_assertWait {w w' : Waiter} :
    (s.assertWait w).Parked w' ↔ s.Parked w' ∨ w' = w := by
  unfold assertWait
  rw [parked_setQueue, List.mem_append, List.mem_singleton]
  constructor
  · rintro (⟨h, hold | hnew⟩ | ⟨-, hold⟩)
    · exact .inl (by rwa [Parked, h])
    · exact .inr hnew
    · exact .inl hold
  · rintro (hold | rfl)
    · by_cases h : waitHash w'.event = waitHash w.event
      · exact .inl ⟨h, .inl (h ▸ hold)⟩
      · exact .inr ⟨h, hold⟩
    · exact .inl ⟨rfl, .inr rfl⟩

theorem Inv.sleep (hi : s.Inv) {thread : ℕ} {event : UInt32} (hforeign : s.Foreign event) :
    (s.assertWait ⟨thread, event, none⟩).Inv where
  keyed w hw u hu := by
    rcases parked_assertWait.mp hw with hold | rfl
    · exact hi.keyed w hold u hu
    · exact absurd hu (Option.not_mem_none u)
  shared w w' hw hw' heq u hu := by
    rcases parked_assertWait.mp hw with hold | rfl
    · rcases parked_assertWait.mp hw' with hold' | rfl
      · exact hi.shared w w' hold hold' heq u hu
      · have hevent : w.event = event := heq
        rw [hforeign w (hevent ▸ hold) hevent] at hu
        exact absurd hu (Option.not_mem_none u)
    · exact absurd hu (Option.not_mem_none u)

theorem Inv.park (hi : s.Inv) {thread : ℕ} {u : Word} (hsettled : Settled s.maps u)
    (halone : ∀ w, s.Parked w → w.event = futexKey s.maps u → On s.maps u w) :
    (s.assertWait ⟨thread, futexKey s.maps u, some u⟩).Inv where
  keyed w hw v hv := by
    rcases parked_assertWait.mp hw with hold | rfl
    · exact hi.keyed w hold v hv
    · cases hv
      exact ⟨hsettled, rfl⟩
  shared w w' hw hw' heq v hv := by
    rcases parked_assertWait.mp hw with hold | rfl
    · rcases parked_assertWait.mp hw' with hold' | rfl
      · exact hi.shared w w' hold hold' heq v hv
      · obtain ⟨v', hv', hloc⟩ := halone w hold heq
        cases hv.symm.trans hv'
        exact ⟨u, rfl, hloc.symm⟩
    · cases hv
      rcases parked_assertWait.mp hw' with hold' | rfl
      · exact halone w' hold' heq.symm
      · exact ⟨u, rfl, rfl⟩

theorem Inv.futexWait (hi : s.Inv) {thread : ℕ} {u : Word} {object : UInt32} {readable : Bool}
    (happart : s.Apart (.wait thread u object readable)) :
    (s.futexWait thread u object readable).Inv := by
  obtain ⟨hsettled, halone⟩ := happart
  unfold FutexState.futexWait
  split
  · have hmaps : { s with maps := touch s.maps u object }.Inv :=
      hi.of_maps fun w hw v hv =>
        have hv := (hi.keyed w hw v hv).1
        ⟨settled_touch u object hv, loc_touch u object hv⟩
    have hkey : futexKey s.maps u = futexKey (touch s.maps u object) u := by
      rw [futexKey, futexKey, loc_touch u object hsettled]
    rw [hkey]
    apply hmaps.park (settled_touch u object hsettled)
    intro w hw hevent
    have hevent : w.event = futexKey s.maps u := hevent.trans hkey.symm
    obtain ⟨v, hv, hloc⟩ := halone w (hevent ▸ hw) hevent
    refine ⟨v, hv, ?_⟩
    rw [loc_touch u object (hi.keyed w hw v hv).1, loc_touch u object hsettled, hloc]
  · exact hi

theorem Inv.futexWaitv (hi : s.Inv) {thread : ℕ} {us : List (Word × UInt32)} {slot : UInt32}
    {readable : Bool} (hforeign : s.Foreign slot) :
    (s.futexWaitv thread us slot readable).Inv := by
  have hmaps : { s with maps := (futexvKeys us s.maps).2 }.Inv :=
    hi.of_maps fun w hw v hv => futexvKeys_keeps us (hi.keyed w hw v hv).1
  unfold FutexState.futexWaitv
  dsimp only
  split
  · have hslot : { s with
        maps := (futexvKeys us s.maps).2
        futexv := s.futexv ++ [(slot, (futexvKeys us s.maps).1)] }.Inv :=
      hmaps.of_fewer rfl fun _ hw => hw
    exact hslot.sleep hforeign
  · exact hmaps

theorem parked_of_setQueue {event : UInt32} {q : List Waiter} {w : Waiter}
    (hq : ∀ w ∈ q, w ∈ s.waitQueue (waitHash event))
    (hw : (s.setQueue (waitHash event) q).Parked w) : s.Parked w := by
  rcases parked_setQueue.mp hw with ⟨h, hmem⟩ | ⟨-, hold⟩
  · rw [Parked, h]
    exact hq w hmem
  · exact hold

theorem Inv.wakeupOne (hi : s.Inv) (event : UInt32) : (s.wakeupOne event).2.Inv :=
  hi.of_fewer rfl fun _ hw => parked_of_setQueue (fun _ => List.mem_of_mem_eraseP) hw

theorem Inv.wakeupAll (hi : s.Inv) (event : UInt32) : (s.wakeupAll event).2.Inv :=
  hi.of_fewer rfl fun _ hw => parked_of_setQueue (fun _ => List.mem_of_mem_filter) hw

theorem maps_wakeSlots (slots : List UInt32) : (s.wakeSlots slots).2.maps = s.maps := by
  induction slots generalizing s with
  | nil => rfl
  | cons slot slots ih => exact ih

theorem parked_of_wakeSlots {slots : List UInt32} {w : Waiter}
    (hw : (s.wakeSlots slots).2.Parked w) : s.Parked w := by
  induction slots generalizing s with
  | nil => exact hw
  | cons slot slots ih => exact parked_of_setQueue (fun _ => List.mem_of_mem_eraseP) (ih hw)

theorem Inv.wakeSlots (hi : s.Inv) (slots : List UInt32) : (s.wakeSlots slots).2.Inv :=
  hi.of_fewer (maps_wakeSlots slots) fun _ => parked_of_wakeSlots

theorem Inv.futexWake (hi : s.Inv) (u : Word) (nwake : ℕ) : (s.futexWake u nwake).2.Inv := by
  have hslots := hi.wakeSlots
    ((s.futexv.filter fun slot => slot.2.contains (futexKey s.maps u)).map Prod.fst)
  unfold FutexState.futexWake futexvWakeKey
  dsimp only
  split
  · exact hslots.wakeupOne _
  · exact hslots.wakeupAll _

theorem Inv.step (hi : s.Inv) {e : FutexEvent} (happart : s.Apart e)
    (hstep : s.step e = some s') : s'.Inv := by
  cases e <;> simp only [FutexState.step, Option.some.injEq] at hstep <;> subst hstep
  case wait => exact hi.futexWait happart
  case waitv => exact hi.futexWaitv happart
  case unregister => exact hi.of_fewer rfl fun _ hw => hw
  case wake u nwake => exact hi.futexWake u nwake
  case sleep => exact hi.sleep happart
  case wakeup event => exact hi.wakeupAll event
  case clearWait => exact hi.of_fewer rfl fun _ => List.mem_of_mem_filter
  case vm => exact hi.of_maps fun w hw => happart _ w hw

theorem inv_start (maps : Maps) : (start maps).Inv where
  keyed _ hw := absurd hw List.not_mem_nil
  shared _ _ hw := absurd hw List.not_mem_nil

theorem Inv.wakeupOne_reaches (hi : s.Inv) {w : Waiter} {u : Word} (hw : s.Parked w)
    (hu : u ∈ w.word) : ∃ w' ∈ (s.wakeupOne w.event).1, s.Parked w' ∧ On s.maps u w' := by
  have hsome : ((s.waitQueue (waitHash w.event)).find? (·.event == w.event)).isSome := by
    rw [List.find?_isSome]
    exact ⟨w, hw, beq_self_eq_true _⟩
  obtain ⟨w', hfind⟩ := Option.isSome_iff_exists.mp hsome
  have hevent : w'.event = w.event := by simpa using List.find?_some hfind
  have hparked : s.Parked w' := by
    rw [Parked, hevent]
    exact List.mem_of_find?_eq_some hfind
  exact ⟨w', by simp [FutexState.wakeupOne, hfind], hparked,
    hi.shared w w' hw hparked hevent.symm u hu⟩

theorem parked_wakeupOne {w : Waiter} {event : UInt32} (hne : w.event ≠ event)
    (hw : s.Parked w) : (s.wakeupOne event).2.Parked w := by
  apply parked_setQueue.mpr
  by_cases h : waitHash w.event = waitHash event
  · exact .inl ⟨h, (List.mem_eraseP_of_neg (by simpa using hne)).mpr (h ▸ hw)⟩
  · exact .inr ⟨h, hw⟩

theorem Inv.wakeSlots_reaches (hi : s.Inv) {w : Waiter} {u : Word} (hw : s.Parked w)
    (hu : u ∈ w.word) (slots : List UInt32) :
    (∃ w' ∈ (s.wakeSlots slots).1, s.Parked w' ∧ On s.maps u w') ∨
      (s.wakeSlots slots).2.Parked w := by
  induction slots generalizing s with
  | nil => exact .inr hw
  | cons slot slots ih =>
    by_cases hslot : w.event = slot
    · left
      obtain ⟨w', hmem, hreach⟩ := hi.wakeupOne_reaches hw hu
      exact ⟨w', List.mem_append_left _ (hslot ▸ hmem), hreach⟩
    · rcases ih (hi.wakeupOne slot) (parked_wakeupOne hslot hw) with ⟨w', hmem, hp, hon⟩ | hrest
      · left
        exact ⟨w', List.mem_append_right _ hmem,
          parked_of_setQueue (fun _ => List.mem_of_mem_eraseP) hp, hon⟩
      · exact .inr hrest

end FutexState

open FutexState

/-- In every run whose waits find the object of their word and share no event with another
word, and whose address spaces keep the parked words where they are, a wake of one thread on a
word that a thread is parked on wakes a thread parked on it. -/
theorem wake_reaches_waiter {maps : Maps} {events : List FutexEvent} {s : FutexState} {u : Word}
    (hmeet : StepsMeet FutexState.step Apart (start maps) events)
    (hrun : runSteps FutexState.step (start maps) events = some s)
    (hparked : ∃ w, s.Parked w ∧ On s.maps u w) :
    ∃ w ∈ (s.futexWake u 1).1, s.Parked w ∧ On s.maps u w := by
  have hi : s.Inv := runSteps_invariant_of_guard (fun _ _ _ hi hg hs => hi.step hg hs)
    (inv_start maps) hmeet hrun
  obtain ⟨w, hw, v, hv, hloc⟩ := hparked
  have hkey : futexKey s.maps u = w.event := by
    rw [(hi.keyed w hw v hv).2, futexKey, futexKey, hloc]
  -- it is enough to reach a waiter on the word that `w` gave
  suffices h : ∃ w' ∈ (s.futexWake u 1).1, s.Parked w' ∧ On s.maps v w' by
    obtain ⟨w', hmem, hp, v', hv', hloc'⟩ := h
    exact ⟨w', hmem, hp, v', hv', hloc'.trans hloc⟩
  unfold FutexState.futexWake futexvWakeKey
  rw [hkey]
  dsimp only
  rw [if_pos rfl]
  generalize (s.futexv.filter fun slot => slot.2.contains w.event).map Prod.fst = slots
  rcases hi.wakeSlots_reaches hw hv slots with ⟨w', hmem, hreach⟩ | hstill
  · exact ⟨w', List.mem_append_left _ hmem, hreach⟩
  · obtain ⟨w', hmem, hp, hon⟩ := (hi.wakeSlots slots).wakeupOne_reaches hstill hv
    rw [maps_wakeSlots] at hon
    exact ⟨w', List.mem_append_right _ hmem, parked_of_wakeSlots hp, hon⟩

def sharedPage : Maps := fun map =>
  if map = 0x1000 then [⟨0x40000, 0x41000, some 0x7000, 0, false⟩]
  else if map = 0x2000 then [⟨0x90000, 0x91000, some 0x7000, 0, false⟩] else []

theorem wake_reaches_waiter_shared_page :
    ∃ s, runSteps FutexState.step (start sharedPage)
        [.sleep 8 0x300, .wait 1 ⟨0x1000, 0x40010, false⟩ 0 true] = some s ∧
      ∃ w ∈ (s.futexWake ⟨0x2000, 0x90010, false⟩ 1).1,
        s.Parked w ∧ On s.maps ⟨0x2000, 0x90010, false⟩ w :=
  ⟨_, rfl, @wake_reaches_waiter sharedPage
    [.sleep 8 0x300, .wait 1 ⟨0x1000, 0x40010, false⟩ 0 true] _ _ (by decide +kernel) rfl
    ⟨⟨1, futexKey sharedPage ⟨0x1000, 0x40010, false⟩, some ⟨0x1000, 0x40010, false⟩⟩,
      by unfold Parked; decide +kernel, by decide +kernel⟩⟩

def freshPage : Maps := fun map =>
  if map = 0x1000 then [⟨0x40000, 0x41000, none, 0, false⟩] else []

/-- The first wait on a fresh page parks under the task's own key, and the wake looks under the
key of the object that the wait itself brought into being. -/
theorem first_touch_loses_wake :
    ∃ s, runSteps FutexState.step (start freshPage)
        [.wait 1 ⟨0x1000, 0x40010, false⟩ 0x7000 true] = some s ∧
      (∃ w, s.Parked w ∧ On s.maps ⟨0x1000, 0x40010, false⟩ w) ∧
      (s.futexWake ⟨0x1000, 0x40010, false⟩ 1).1 = [] :=
  ⟨_, rfl, ⟨⟨1, futexKey freshPage ⟨0x1000, 0x40010, false⟩, some ⟨0x1000, 0x40010, false⟩⟩,
    by unfold Parked; decide +kernel, by decide +kernel⟩, by decide +kernel⟩

-- Two private words of different tasks may have one key: the thread that waited first is woken,
-- whichever word the wake names.
example : ∃ s, runSteps FutexState.step (start fun _ => [⟨0, 0xC0000000, none, 0, false⟩])
    [.wait 1 ⟨0x1000, 0x1000, true⟩ 0 true, .wait 2 ⟨0x5000, 0x4df0c000, true⟩ 0 true] = some s ∧
    ((s.futexWake ⟨0x5000, 0x4df0c000, true⟩ 1).1.map (·.thread)) = [1] :=
  ⟨_, rfl, by decide +kernel⟩

end Uros.Kernel
