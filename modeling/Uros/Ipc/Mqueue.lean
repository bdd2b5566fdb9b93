import Mathlib.Algebra.Notation.Pi.Basic
import Mathlib.Algebra.Ring.Nat
import Mathlib.Tactic.Common
import Uros.Foundation.Transition

/-!
Message queues (`ipc_mqueue.c`): ports with a limit on their messages, and port sets, whose queue
has the messages of all members.

A step is what a thread does while it has a port or a queue locked.  A thread that waits or has a
message is in a list, with the message it sends or has got.  `accepted` and `taken` record the
messages of a port in the order in which they came in and in which receivers got them.  Of the hot
path of `mach_msg_overwrite_trap` the end of the receive is a step of its own; its sends do what
`ipc_mqueue_send` does when a receiver waits.
-/

namespace Uros.Ipc.Mqueue

open Uros.Foundation Function

/-- `struct ipc_mqueue`, as the queue of a port or of a port set. -/
inductive Queue where
  | port (p : ℕ)
  | pset (set : ℕ)
  deriving DecidableEq

structure Kmsg where
  /-- `msgh_remote_port` -/
  remote : ℕ
  body : ℕ
  deriving DecidableEq

structure State where
  active : ℕ → Bool
  /-- dead, with messages that `ipc_port_destroy` has not destroyed yet -/
  draining : ℕ → Bool
  pset : ℕ → Option ℕ
  msgcount : ℕ → ℕ
  qlimit : ℕ → ℕ
  /-- `ip_blocked` -/
  blocked : ℕ → List (ℕ × Kmsg)
  /-- senders woken with `MACH_MSG_SUCCESS`, which try again -/
  roused : ℕ → List (ℕ × Kmsg)
  alive : ℕ → Bool
  messages : Queue → List Kmsg
  /-- `imq_threads` -/
  threads : Queue → List ℕ
  /-- receivers with `ith_kmsg`, before `ipc_mqueue_finish_receive` -/
  received : ℕ → List (ℕ × Kmsg)
  /-- receives that ended on the hot path, which wakes no sender -/
  unnoticed : ℕ → ℕ
  accepted : ℕ → List Kmsg
  taken : ℕ → List Kmsg

namespace State

def mqueue (s : State) (p : ℕ) : Queue :=
  match s.pset p with
  | none => .port p
  | some set => .pset set

def hand (s : State) (t : ℕ) (m : Kmsg) : State :=
  { s with
    received := update s.received m.remote ((t, m) :: s.received m.remote)
    taken := update s.taken m.remote (s.taken m.remote ++ [m]) }

/-- `ipc_kmsg_enqueue` -/
def enqueue (s : State) (q : Queue) (m : Kmsg) : State :=
  { s with messages := update s.messages q (s.messages q ++ [m]) }

def give (s : State) (q : Queue) (m : Kmsg) : State :=
  match s.threads q with
  | [] => s.enqueue q m
  | t :: ts => { s with threads := update s.threads q ts }.hand t m

def accept (s : State) (m : Kmsg) : State :=
  { s with
    msgcount := update s.msgcount m.remote (s.msgcount m.remote + 1)
    accepted := update s.accepted m.remote (s.accepted m.remote ++ [m]) }

/-- `ipc_mqueue_deliver` -/
def deliver (s : State) (m : Kmsg) : State := (s.accept m).give (s.mqueue m.remote) m

/-- One turn of the loop of `ipc_mqueue_send`.  `always` is `MACH_SEND_ALWAYS` or a send-once
right, `poll` a timeout of 0. -/
def trySend (s : State) (t : ℕ) (m : Kmsg) (always poll : Bool) : State :=
  if s.active m.remote then
    if s.msgcount m.remote < s.qlimit m.remote ∨ always then s.deliver m
    else if poll then s
    else { s with blocked := update s.blocked m.remote (s.blocked m.remote ++ [(t, m)]) }
  else s

/-- One turn of the loop of `ipc_mqueue_receive`. -/
def tryReceive (s : State) (t : ℕ) (q : Queue) (poll : Bool) : State :=
  match s.messages q with
  | m :: ms => { s with messages := update s.messages q ms }.hand t m
  | [] => if poll then s else { s with threads := update s.threads q (s.threads q ++ [t]) }

def rouse (s : State) (p : ℕ) : ℕ → State
  | 0 => s
  | n + 1 =>
    match s.blocked p with
    | [] => s
    | x :: xs =>
      rouse { s with
        blocked := update s.blocked p xs
        roused := update s.roused p (x :: s.roused p) } p n

def sendRetry (s : State) (t : ℕ) (m : Kmsg) : State :=
  { s with
    roused := update s.roused m.remote ((s.roused m.remote).erase (t, m)) }.trySend t m false false

def sendResume (s : State) (t : ℕ) (m : Kmsg) (timedOut : Bool) : State :=
  let s' := { s with blocked := update s.blocked m.remote ((s.blocked m.remote).erase (t, m)) }
  if timedOut then s'.trySend t m false true else s'

def receiveResume (s : State) (t : ℕ) (q : Queue) (timedOut : Bool) : State :=
  let s' := { s with threads := update s.threads q ((s.threads q).erase t) }
  if timedOut then s'.tryReceive t q true else s'

/-- `ipc_mqueue_finish_receive` -/
def finishReceive (s : State) (t : ℕ) (m : Kmsg) : State :=
  let p := m.remote
  let s := { s with received := update s.received p ((s.received p).erase (t, m)) }
  if s.active p then
    let s := { s with msgcount := update s.msgcount p (s.msgcount p - 1) }
    if s.msgcount p < s.qlimit p then s.rouse p 1 else s
  else s

/-- The end of a receive on the hot path. -/
def hotReceive (s : State) (t : ℕ) (m : Kmsg) : State :=
  let p := m.remote
  { s with
    received := update s.received p ((s.received p).erase (t, m))
    msgcount := update s.msgcount p (s.msgcount p - 1)
    unnoticed := update s.unnoticed p (s.unnoticed p + 1) }

/-- `ipc_port_set_qlimit` -/
def setQlimit (s : State) (p qlimit : ℕ) : State :=
  let s' := if s.qlimit p < qlimit then s.rouse p (qlimit - s.qlimit p) else s
  { s' with qlimit := update s'.qlimit p qlimit }

def withdraw (s : State) (q : Queue) (p : ℕ) : State :=
  { s with messages := update s.messages q ((s.messages q).filter (·.remote ≠ p)) }

/-- `ipc_mqueue_move`: the messages of port `p` go from one queue to another. -/
def move (s : State) (dest source : Queue) (p : ℕ) : State :=
  ((s.messages source).filter (·.remote = p)).foldl (fun s m => s.give dest m)
    (s.withdraw source p)

/-- `ipc_mqueue_changed`: the receivers give up. -/
def changed (s : State) (q : Queue) : State := { s with threads := update s.threads q [] }

/-- `ipc_pset_add` -/
def psetAdd (s : State) (p set : ℕ) : State :=
  ({ s with pset := update s.pset p (some set) }.move (.pset set) (.port p) p).changed (.port p)

/-- `ipc_pset_remove` -/
def psetRemove (s : State) (p set : ℕ) : State :=
  { s with pset := update s.pset p none }.move (.port p) (.pset set) p

/-- `ipc_pset_move` -/
def psetMove (s : State) (p : ℕ) (nset : Option ℕ) : State :=
  match s.pset p, nset with
  | none, none => s
  | none, some set => s.psetAdd p set
  | some old, none => s.psetRemove p old
  | some old, some set => if old = set then s else (s.psetRemove p old).psetAdd p set

/-- `ipc_port_clear_receiver` -/
def clearReceiver (s : State) (p : ℕ) : State :=
  match s.pset p with
  | some set => s.psetRemove p set
  | none => s.changed (.port p)

/-- `ipc_port_destroy` after `ipc_port_clear_receiver`, up to where it unlocks the port: the senders
are woken. -/
def portDestroy (s : State) (p : ℕ) : State :=
  let s' := (s.clearReceiver p).rouse p (s.blocked p).length
  { s' with
    active := update s'.active p false
    draining := update s'.draining p true }

/-- Its loop, which takes out one message at a time. -/
def drain (s : State) (p : ℕ) : State :=
  match s.messages (.port p) with
  | [] => { s with draining := update s.draining p false }
  | _ :: ms => { s with messages := update s.messages (.port p) ms }

/-- `ipc_pset_destroy`; the members are removed later. -/
def psetDestroy (s : State) (set : ℕ) : State :=
  { s with alive := update s.alive set false }.changed (.pset set)

/-- The queues that `ipc_mqueue_copyin` lets threads receive from. -/
def canReceive (s : State) : Queue → Bool
  | .port p => s.active p && s.pset p = none
  | .pset set => s.alive set

end State

inductive Event where
  | send (t : ℕ) (m : Kmsg) (always poll : Bool)
  | sendRetry (t : ℕ) (m : Kmsg)
  | sendResume (t : ℕ) (m : Kmsg) (timedOut : Bool)
  | receive (t : ℕ) (q : Queue) (poll : Bool)
  | receiveResume (t : ℕ) (q : Queue) (timedOut : Bool)
  | finishReceive (t : ℕ) (m : Kmsg)
  | hotReceive (t : ℕ) (m : Kmsg)
  | setQlimit (p qlimit : ℕ)
  | psetMove (p : ℕ) (nset : Option ℕ)
  | clearReceiver (p : ℕ)
  | portDestroy (p : ℕ)
  | drain (p : ℕ)
  | psetDestroy (set : ℕ)

def step (s : State) : Event → Option State
  | .send t m always poll => some (s.trySend t m always poll)
  | .sendRetry t m => if (t, m) ∈ s.roused m.remote then some (s.sendRetry t m) else none
  | .sendResume t m timedOut =>
    if (t, m) ∈ s.blocked m.remote then some (s.sendResume t m timedOut) else none
  | .receive t q poll => if s.canReceive q then some (s.tryReceive t q poll) else none
  | .receiveResume t q timedOut =>
    if t ∈ s.threads q then some (s.receiveResume t q timedOut) else none
  | .finishReceive t m =>
    if (t, m) ∈ s.received m.remote then some (s.finishReceive t m) else none
  | .hotReceive t m =>
    if (t, m) ∈ s.received m.remote then some (s.hotReceive t m) else none
  | .setQlimit p qlimit => if s.active p then some (s.setQlimit p qlimit) else none
  | .psetMove p nset =>
    if s.active p ∧ nset.all s.alive then some (s.psetMove p nset) else none
  | .clearReceiver p => if s.active p then some (s.clearReceiver p) else none
  | .portDestroy p => if s.active p then some (s.portDestroy p) else none
  | .drain p => if s.draining p then some (s.drain p) else none
  | .psetDestroy set => if s.alive set then some (s.psetDestroy set) else none

def start (qlimit : ℕ → ℕ) : State where
  active _ := true
  draining _ := false
  pset _ := none
  msgcount _ := 0
  qlimit := qlimit
  blocked _ := []
  roused _ := []
  alive _ := true
  messages _ := []
  threads _ := []
  received _ := []
  unnoticed _ := 0
  accepted _ := []
  taken _ := []

/-! ## The invariant -/

def State.pending (s : State) (p : ℕ) : List Kmsg :=
  (s.messages (s.mqueue p)).filter (·.remote = p)

/-- The messages of a port that no receiver has got, oldest first, when `front` was taken out of
the queue for a receiver and `rest` is not yet in it. -/
def line (s : State) (front rest : List Kmsg) (p : ℕ) : List Kmsg :=
  front.filter (·.remote = p) ++ s.pending p ++ rest.filter (·.remote = p)

/-- `owed` is the number of senders still to be woken. -/
structure Inv (s : State) (front rest : List Kmsg) (owed : ℕ → ℕ) : Prop where
  idle : ∀ q, s.threads q ≠ [] → s.messages q = []
  dead : ∀ p, s.draining p → s.active p = false ∧ s.pset p = none
  home : ∀ q, ∀ m ∈ s.messages q, (s.active m.remote ∨ s.draining m.remote) ∧
    s.mqueue m.remote = q
  order : ∀ p, s.active p → s.accepted p = s.taken p ++ line s front rest p
  count : ∀ p, s.active p → s.msgcount p = (s.received p).length + (line s front rest p).length
  flow : ∀ p, s.blocked p ≠ [] → s.active p ∧
    s.qlimit p ≤ s.msgcount p + (s.roused p).length + s.unnoticed p + owed p

theorem start_inv (qlimit : ℕ → ℕ) : Inv (start qlimit) [] [] 0 where
  idle q h := absurd rfl h
  dead p h := by cases h
  home q m h := by cases h
  order p h := rfl
  count p h := rfl
  flow p h := absurd rfl h

@[simp]
theorem line_nil (s : State) : line s [] [] = s.pending := by
  funext p
  simp [line]

theorem mqueue_eq_port {s : State} {p r : ℕ} (h : s.mqueue r = .port p) : r = p := by
  rw [State.mqueue] at h
  split at h
  · exact Queue.port.inj h
  · cases h

namespace Inv

variable {s : State} {front rest : List Kmsg} {m : Kmsg} {q : Queue} {p t d : ℕ}
  {owed : ℕ → ℕ}

/-- Messages go from one place to another, and those of each port keep their order. -/
theorem relocate {front' rest' : List Kmsg} {pset : ℕ → Option ℕ}
    {messages : Queue → List Kmsg} (h : Inv s front rest owed)
    (hpset : ∀ p, s.draining p → pset p = none)
    (hidle : ∀ q, s.threads q ≠ [] → messages q = [])
    (hhome : ∀ q, ∀ m ∈ messages q, (s.active m.remote ∨ s.draining m.remote) ∧
      State.mqueue { s with pset := pset } m.remote = q)
    (hline : ∀ p, line { s with pset := pset, messages := messages } front' rest' p =
      line s front rest p) :
    Inv { s with pset := pset, messages := messages } front' rest' owed :=
  { h with
    idle := hidle
    dead := fun p hp => ⟨(h.dead p hp).1, hpset p hp⟩
    home := hhome
    order := fun p hp => (hline p).symm ▸ h.order p hp
    count := fun p hp => (hline p).symm ▸ h.count p hp }

theorem hand (h : Inv s [m] rest owed) : Inv (s.hand t m) [] rest owed := by
  have hline : ∀ p, line s [m] rest p = [m].filter (·.remote = p) ++ line s [] rest p := by
    simp [line]
  exact {
    h with
    order := fun p hp => by
      refine (h.order p hp).trans ?_
      rw [hline, ← List.append_assoc]
      change _ = update s.taken m.remote (s.taken m.remote ++ [m]) p ++ line s [] rest p
      by_cases hpm : m.remote = p
      · simp [← hpm]
      · simp [hpm, Ne.symm hpm]
    count := fun p hp => by
      refine (h.count p hp).trans ?_
      rw [hline, List.length_append, ← Nat.add_assoc]
      change _ = (update s.received m.remote _ p).length + (line s [] rest p).length
      by_cases hpm : m.remote = p
      · simp [← hpm]
      · simp [hpm, Ne.symm hpm] }

theorem fewer (h : Inv s front rest owed) {ts : List ℕ} (hne : s.threads q = [] → ts = []) :
    Inv { s with threads := update s.threads q ts } front rest owed :=
  { h with
    idle := fun r hr => by
      refine h.idle r fun hnil => hr ?_
      by_cases hrq : r = q
      · subst hrq
        simp [hne hnil]
      · simpa [hrq] using hnil }

theorem enqueue (h : Inv s [] (m :: rest) owed) (hact : s.active m.remote)
    (hq : s.mqueue m.remote = q) (hth : s.threads q = []) : Inv (s.enqueue q m) [] rest owed := by
  refine h.relocate (fun r hr => (h.dead r hr).2) (fun r hr => ?_) (fun r m' hm' => ?_) fun p => ?_
  · have hrq : r ≠ q := by
      rintro rfl
      exact hr hth
    simpa [hrq] using h.idle r hr
  · by_cases hr : r = q
    · subst hr
      simp only [update_self, List.mem_append, List.mem_singleton] at hm'
      rcases hm' with hm' | rfl
      · exact h.home r m' hm'
      · exact ⟨.inl hact, hq⟩
    · exact h.home r m' (by simpa [hr] using hm')
  · change _ ++ (update s.messages q (s.messages q ++ [m]) (s.mqueue p)).filter _ ++ _ = _
    by_cases hp : s.mqueue p = q
    · simp [line, State.pending, hp, List.filter_cons]
      split_ifs <;> simp
    · have hne : m.remote ≠ p := fun heq => hp (heq ▸ hq)
      simp [line, State.pending, hp, hne]

theorem give (h : Inv s [] (m :: rest) owed) (hact : s.active m.remote)
    (hq : s.mqueue m.remote = q) : Inv (s.give q m) [] rest owed := by
  cases hth : s.threads q with
  | nil =>
    simp only [State.give, hth]
    exact h.enqueue hact hq hth
  | cons t ts =>
    simp only [State.give, hth]
    -- The queue is empty, so this message is the first one of its port.
    have hempty := h.idle q (by simp [hth])
    have hfirst : Inv s [m] rest owed := h.relocate (fun r hr => (h.dead r hr).2) h.idle h.home fun p => by
      by_cases hpm : m.remote = p
      · simp [line, State.pending, ← hpm, hq, hempty]
      · simp [line, hpm]
    exact (hfirst.fewer (by simp [hth])).hand

theorem give_frame : (s.give q m).active = s.active ∧ (s.give q m).pset = s.pset ∧
    (s.give q m).blocked = s.blocked := by
  rw [State.give]
  split <;> exact ⟨rfl, rfl, rfl⟩

theorem giveAll {ms : List Kmsg} (h : Inv s [] ms owed) (hms : ∀ m ∈ ms, m.remote = p)
    (hact : s.active p) (hq : s.mqueue p = q) :
    Inv (ms.foldl (fun s m => s.give q m) s) [] [] owed := by
  induction ms generalizing s with
  | nil => exact h
  | cons m ms ih =>
    have hm := hms m List.mem_cons_self
    refine ih (h.give (hm ▸ hact) (hm ▸ hq))
      (fun m' hm' => hms m' (List.mem_cons_of_mem m hm')) ?_ ?_
    · rw [give_frame.1, hact]
    · rw [State.mqueue, give_frame.2.1]
      exact hq

/-! ### Ports that change their set -/

theorem mem_withdraw (h : Inv s [] [] owed) {r : Queue}
    (hm : m ∈ (s.withdraw (s.mqueue p) p).messages r) : m ∈ s.messages r ∧ m.remote ≠ p := by
  by_cases hr : r = s.mqueue p
  · subst hr
    simpa [State.withdraw] using hm
  · simp only [State.withdraw, update_of_ne hr] at hm
    refine ⟨hm, fun heq => hr ?_⟩
    rw [← heq, (h.home r m hm).2]

theorem pending_withdraw {r : ℕ} : (s.withdraw (s.mqueue p) p).pending r =
    if r = p then [] else s.pending r := by
  change (update s.messages (s.mqueue p) _ (s.mqueue r)).filter (·.remote = r) = _
  split_ifs with hr
  · subst hr
    simp
  · by_cases hq : s.mqueue r = s.mqueue p
    · rw [hq, update_self, List.filter_filter, State.pending, hq]
      refine List.filter_congr fun m _ => ?_
      by_cases hm : m.remote = r <;> simp [hm, hr]
    · rw [update_of_ne hq, State.pending]

theorem filter_pending {r : ℕ} :
    (s.pending p).filter (·.remote = r) = if r = p then s.pending p else [] := by
  rw [State.pending, List.filter_filter]
  split_ifs with hr
  · simp [hr]
  · refine List.filter_eq_nil_iff.mpr fun m _ => ?_
    simp only [Bool.and_eq_true, decide_eq_true_eq, not_and]
    rintro rfl hm
    exact hr hm

theorem withdraw (h : Inv s [] [] owed) :
    Inv (s.withdraw (s.mqueue p) p) [] (s.pending p) owed := by
  refine h.relocate (fun r hr => (h.dead r hr).2) (fun r hr => ?_) (fun r m hm => h.home r m (h.mem_withdraw hm).1) fun r => ?_
  · refine List.eq_nil_iff_forall_not_mem.mpr fun m hm => ?_
    have hold := (h.mem_withdraw hm).1
    rw [h.idle r hr] at hold
    cases hold
  · change _ ++ (s.withdraw (s.mqueue p) p).pending r ++ _ = _
    rw [pending_withdraw, filter_pending, line_nil]
    split_ifs with hrp <;> simp [hrp]

theorem setPset {set : Option ℕ} (h : Inv s [] rest owed) (hact : s.active p)
    (hnone : ∀ r, ∀ m ∈ s.messages r, m.remote ≠ p) :
    Inv { s with pset := update s.pset p set } [] rest owed := by
  refine h.relocate (fun r hr => ?_) h.idle (fun r m hm => ?_) fun r => ?_
  · have hrp : r ≠ p := by
      rintro rfl
      rw [(h.dead r hr).1] at hact
      cases hact
    rw [update_of_ne hrp]
    exact (h.dead r hr).2
  · obtain ⟨hact, hq⟩ := h.home r m hm
    exact ⟨hact, by simpa [State.mqueue, hnone r m hm] using hq⟩
  · by_cases hr : r = p
    · subst hr
      have hnil : ∀ q, (s.messages q).filter (·.remote = r) = [] := fun q =>
        List.filter_eq_nil_iff.mpr (by simpa using hnone q)
      simp [line, State.pending, hnil]
    · simp [line, State.pending, State.mqueue, hr]

theorem move {dest : Queue} {set : Option ℕ} (h : Inv s [] [] owed) (hact : s.active p)
    (hdest : State.mqueue { s with pset := update s.pset p set } p = dest) :
    Inv ({ s with pset := update s.pset p set }.move dest (s.mqueue p) p) [] [] owed :=
  (h.withdraw.setPset hact fun _ _ hm => (h.mem_withdraw hm).2).giveAll
    (fun m hm => by simpa [State.pending] using (List.mem_filter.mp hm).2) hact hdest

theorem psetRemove {set : ℕ} (h : Inv s [] [] owed) (hact : s.active p)
    (hset : s.pset p = some set) : Inv (s.psetRemove p set) [] [] owed := by
  have hq : s.mqueue p = .pset set := by rw [State.mqueue, hset]
  rw [State.psetRemove, ← hq]
  exact h.move hact (by simp [State.mqueue])

theorem psetAdd {set : ℕ} (h : Inv s [] [] owed) (hact : s.active p) (hset : s.pset p = none) :
    Inv (s.psetAdd p set) [] [] owed := by
  have hq : s.mqueue p = .port p := by rw [State.mqueue, hset]
  rw [State.psetAdd, ← hq]
  exact (h.move hact (by simp [State.mqueue])).fewer fun _ => rfl

theorem clearReceiver (h : Inv s [] [] owed) (hact : s.active p) :
    Inv (s.clearReceiver p) [] [] owed := by
  rw [State.clearReceiver]
  split
  · next set hset => exact h.psetRemove hact hset
  · exact h.fewer fun _ => rfl

/-! ### Senders -/

theorem settle (h : Inv s front rest (Pi.single p d)) (hflow : s.blocked p ≠ [] → s.active p →
    s.qlimit p ≤ s.msgcount p + (s.roused p).length + s.unnoticed p) : Inv s front rest 0 :=
  { h with
    flow := fun r hr => by
      obtain ⟨hact, hle⟩ := h.flow r hr
      by_cases hrp : r = p
      · subst hrp
        exact ⟨hact, hflow hr hact⟩
      · exact ⟨hact, by simpa [hrp] using hle⟩ }

theorem rouse (h : Inv s [] [] (Pi.single p d)) : Inv (s.rouse p d) [] [] 0 := by
  induction d generalizing s with
  | zero =>
    rw [Pi.single_zero] at h
    exact h
  | succ d ih =>
    rw [State.rouse]
    split
    · next hb => exact h.settle fun hne => absurd hb hne
    · next x xs hb =>
      refine ih {
        h with
        flow := fun r hr => ?_ }
      by_cases hrp : r = p
      · subst hrp
        obtain ⟨hact, hle⟩ := h.flow r (by simp [hb])
        simp only [update_self, List.length_cons, Pi.single_eq_same] at hle ⊢
        exact ⟨hact, by omega⟩
      · simpa [hrp] using h.flow r (by simpa [hrp] using hr)

theorem accept (h : Inv s [] [] (Pi.single m.remote d)) (hd : d ≤ 1) :
    Inv (s.accept m) [] [m] 0 := by
  have hline : ∀ r, line s [] [m] r = line s [] [] r ++ [m].filter (·.remote = r) := by
    simp [line]
  exact {
    h with
    order := fun r hr => by
      change update s.accepted m.remote _ r = s.taken r ++ line s [] [m] r
      rw [hline, ← List.append_assoc, ← h.order r hr]
      by_cases hrm : m.remote = r
      · simp [← hrm]
      · simp [hrm, Ne.symm hrm]
    count := fun r hr => by
      change update s.msgcount m.remote _ r =
        (s.received r).length + (line s [] [m] r).length
      rw [hline, List.length_append, ← Nat.add_assoc, ← h.count r hr]
      by_cases hrm : m.remote = r
      · simp [← hrm]
      · simp [hrm, Ne.symm hrm]
    flow := fun r hr => by
      obtain ⟨hact, hle⟩ := h.flow r hr
      refine ⟨hact, ?_⟩
      by_cases hrm : r = m.remote
      · subst hrm
        simp only [State.accept, update_self, Pi.single_eq_same, Pi.zero_apply] at hle ⊢
        omega
      · simpa [State.accept, hrm] using hle }

theorem trySend {always poll : Bool} (h : Inv s [] [] (Pi.single m.remote d)) (hd : d ≤ 1)
    (hpoll : poll = true → d = 0) : Inv (s.trySend t m always poll) [] [] 0 := by
  rw [State.trySend]
  split_ifs with hact hroom hp
  · exact (h.accept hd).give hact rfl
  · rw [hpoll hp, Pi.single_zero] at h
    exact h
  · have hfull : s.qlimit m.remote ≤ s.msgcount m.remote := by
      simp only [not_or, Nat.not_lt] at hroom
      exact hroom.1
    have h' := h.settle fun _ _ => Nat.le_add_right_of_le (Nat.le_add_right_of_le hfull)
    exact {
      h' with
      flow := fun r hr => by
        by_cases hrm : r = m.remote
        · subst hrm
          exact ⟨hact, by dsimp only; omega⟩
        · exact h'.flow r (by simpa [hrm] using hr) }
  · exact h.settle fun _ hact' => absurd hact' hact

theorem sendRetry (h : Inv s [] [] 0) (hx : (t, m) ∈ s.roused m.remote) :
    Inv (s.sendRetry t m) [] [] 0 := by
  refine trySend (d := 1) {
    h with
    flow := fun r hr => ?_ } le_rfl (by simp)
  obtain ⟨hact, hle⟩ := h.flow r hr
  refine ⟨hact, ?_⟩
  by_cases hrm : r = m.remote
  · subst hrm
    have hlen := List.length_erase_of_mem hx
    simp only [update_self, Pi.single_eq_same, Pi.zero_apply] at hle ⊢
    omega
  · simpa [hrm] using hle

theorem sendResume {timedOut : Bool} (h : Inv s [] [] 0) :
    Inv (s.sendResume t m timedOut) [] [] 0 := by
  have h' : Inv { s with
      blocked := update s.blocked m.remote ((s.blocked m.remote).erase (t, m)) } [] [] 0 :=
    { h with
      flow := fun r hr => by
        refine h.flow r fun hnil => hr ?_
        by_cases hrm : r = m.remote
        · subst hrm
          simp [hnil]
        · simpa [hrm] using hnil }
  rw [State.sendResume]
  split_ifs
  · refine trySend (d := 0) ?_ (Nat.zero_le 1) fun _ => rfl
    rw [Pi.single_zero]
    exact h'
  · exact h'

theorem finishReceive (h : Inv s [] [] 0) (hx : (t, m) ∈ s.received m.remote) :
    Inv (s.finishReceive t m) [] [] 0 := by
  have hlen : (s.received m.remote).length =
      ((s.received m.remote).erase (t, m)).length + 1 := by
    rw [List.length_erase_of_mem hx, Nat.sub_add_cancel (List.length_pos_of_mem hx)]
  rw [State.finishReceive]
  split_ifs with hact
  · have h' : Inv { s with
        received := update s.received m.remote ((s.received m.remote).erase (t, m))
        msgcount := update s.msgcount m.remote (s.msgcount m.remote - 1) } [] []
        (Pi.single m.remote 1) :=
      { h with
        count := fun r hr => by
          change update s.msgcount m.remote _ r =
            (update s.received m.remote _ r).length + (line s [] [] r).length
          have hcount := h.count r hr
          by_cases hrm : r = m.remote
          · subst hrm
            simp only [update_self]
            omega
          · simpa [hrm] using hcount
        flow := fun r hr => by
          obtain ⟨hact', hle⟩ := h.flow r hr
          refine ⟨hact', ?_⟩
          by_cases hrm : r = m.remote
          · subst hrm
            simp only [update_self, Pi.single_eq_same, Pi.zero_apply] at hle ⊢
            omega
          · simpa [hrm] using hle }
    dsimp only
    split_ifs with hlt
    · exact h'.rouse
    · exact h'.settle fun _ _ =>
        Nat.le_add_right_of_le (Nat.le_add_right_of_le (Nat.not_lt.mp hlt))
  · exact {
      h with
      count := fun r hr => by
        have hrm : r ≠ m.remote := by
          rintro rfl
          exact hact hr
        change _ = (update s.received m.remote _ r).length + (line s [] [] r).length
        rw [update_of_ne hrm]
        exact h.count r hr }

theorem hotReceive (h : Inv s [] [] 0) (hx : (t, m) ∈ s.received m.remote) :
    Inv (s.hotReceive t m) [] [] 0 := by
  have hlen : (s.received m.remote).length =
      ((s.received m.remote).erase (t, m)).length + 1 := by
    rw [List.length_erase_of_mem hx, Nat.sub_add_cancel (List.length_pos_of_mem hx)]
  exact {
    h with
    count := fun r hr => by
      change update s.msgcount m.remote _ r =
        (update s.received m.remote _ r).length + (line s [] [] r).length
      have hcount := h.count r hr
      by_cases hrm : r = m.remote
      · subst hrm
        simp only [update_self]
        omega
      · simpa [hrm] using hcount
    flow := fun r hr => by
      obtain ⟨hact, hle⟩ := h.flow r hr
      refine ⟨hact, ?_⟩
      by_cases hrm : r = m.remote
      · subst hrm
        simp only [State.hotReceive, update_self, Pi.zero_apply] at hle ⊢
        omega
      · simpa [State.hotReceive, hrm] using hle }

theorem rouse_frame (n : ℕ) : (s.rouse p n).pset = s.pset ∧ (s.rouse p n).qlimit = s.qlimit ∧
    (s.rouse p n).blocked p = (s.blocked p).drop n := by
  induction n generalizing s with
  | zero => exact ⟨rfl, rfl, rfl⟩
  | succ n ih =>
    rw [State.rouse]
    split
    · next hb => simp [hb]
    · next x xs hb =>
      rw [ih.1, ih.2.1, ih.2.2]
      simp [hb]

theorem rouse_qlimit (limits : ℕ → ℕ) (n : ℕ) :
    { s.rouse p n with qlimit := limits } = { s with qlimit := limits }.rouse p n := by
  induction n generalizing s with
  | zero => rfl
  | succ n ih =>
    rw [State.rouse, State.rouse]
    dsimp only
    split
    · rfl
    · exact ih

theorem setQlimit {qlimit : ℕ} (h : Inv s [] [] 0) : Inv (s.setQlimit p qlimit) [] [] 0 := by
  have hset : s.setQlimit p qlimit =
      { s with qlimit := update s.qlimit p qlimit }.rouse p (qlimit - s.qlimit p) := by
    rw [← rouse_qlimit, State.setQlimit]
    split_ifs with hlt
    · rw [(rouse_frame _).2.1]
    · rw [Nat.sub_eq_zero_of_le (Nat.not_lt.mp hlt)]
      rfl
  rw [hset]
  refine rouse {
    h with
    flow := fun r hr => ?_ }
  obtain ⟨hact, hle⟩ := h.flow r hr
  refine ⟨hact, ?_⟩
  by_cases hrp : r = p
  · subst hrp
    simp at hle ⊢
    omega
  · simpa [hrp] using hle

/-! ### Receivers, and the end of a port -/

theorem dequeue {ms : List Kmsg} (h : Inv s [] [] owed) (hmsg : s.messages q = m :: ms) :
    Inv { s with messages := update s.messages q ms } [m] [] owed := by
  have hq := (h.home q m (by simp [hmsg])).2
  refine h.relocate (fun r hr => (h.dead r hr).2) (fun r hr => ?_) (fun r m' hm' => ?_) fun r => ?_
  · have hrq : r ≠ q := by
      rintro rfl
      rw [h.idle r hr] at hmsg
      cases hmsg
    simpa [hrq] using h.idle r hr
  · by_cases hrq : r = q
    · subst hrq
      exact h.home r m' (hmsg ▸ List.mem_cons_of_mem m (by simpa using hm'))
    · exact h.home r m' (by simpa [hrq] using hm')
  · change _ ++ (update s.messages q ms (s.mqueue r)).filter _ ++ _ = _
    by_cases hr : s.mqueue r = q
    · simp [line, State.pending, hr, hmsg, List.filter_cons]
      split_ifs <;> rfl
    · have hne : m.remote ≠ r := fun heq => hr (heq ▸ hq)
      simp [line, State.pending, hr, hne]

theorem tryReceive {poll : Bool} (h : Inv s [] [] owed) :
    Inv (s.tryReceive t q poll) [] [] owed := by
  rw [State.tryReceive]
  split
  · next m ms hmsg => exact (h.dequeue hmsg).hand
  · next hmsg =>
    split_ifs
    · exact h
    · exact {
        h with
        idle := fun r hr => by
          by_cases hrq : r = q
          · exact hrq ▸ hmsg
          · exact h.idle r (by simpa [hrq] using hr) }

theorem receiveResume {timedOut : Bool} (h : Inv s [] [] owed) :
    Inv (s.receiveResume t q timedOut) [] [] owed := by
  have h' : Inv { s with threads := update s.threads q ((s.threads q).erase t) } [] [] owed :=
    h.fewer fun hnil => by simp [hnil]
  rw [State.receiveResume]
  split_ifs
  · exact h'.tryReceive
  · exact h'

theorem giveAll_frame (ms : List Kmsg) : (ms.foldl (fun s m => s.give q m) s).active = s.active ∧
    (ms.foldl (fun s m => s.give q m) s).pset = s.pset ∧
    (ms.foldl (fun s m => s.give q m) s).blocked = s.blocked := by
  induction ms generalizing s with
  | nil => exact ⟨rfl, rfl, rfl⟩
  | cons m ms ih =>
    rw [List.foldl_cons, ih.1, ih.2.1, ih.2.2]
    exact give_frame

theorem psetRemove_frame {set : ℕ} : (s.psetRemove p set).active = s.active ∧
    (s.psetRemove p set).pset p = none ∧ (s.psetRemove p set).blocked = s.blocked := by
  rw [State.psetRemove, State.move, (giveAll_frame _).1, (giveAll_frame _).2.1,
    (giveAll_frame _).2.2]
  exact ⟨rfl, by simp [State.withdraw], rfl⟩

theorem psetMove {nset : Option ℕ} (h : Inv s [] [] owed) (hact : s.active p) :
    Inv (s.psetMove p nset) [] [] owed := by
  unfold State.psetMove
  split
  · exact h
  · next hset => exact h.psetAdd hact hset
  · next hset => exact h.psetRemove hact hset
  · next old set hset =>
    split_ifs
    · exact h
    · refine (h.psetRemove hact hset).psetAdd ?_ psetRemove_frame.2.1
      rw [psetRemove_frame.1, hact]

theorem clearReceiver_frame :
    (s.clearReceiver p).pset p = none ∧ (s.clearReceiver p).blocked = s.blocked := by
  rw [State.clearReceiver]
  split
  · exact psetRemove_frame.2
  · next hset => exact ⟨hset, rfl⟩

theorem portDestroy (h : Inv s [] [] 0) (hact : s.active p) : Inv (s.portDestroy p) [] [] 0 := by
  have hclear := h.clearReceiver hact
  have h' : Inv ((s.clearReceiver p).rouse p (s.blocked p).length) [] [] 0 :=
    rouse {
      hclear with
      flow := fun r hr => ⟨(hclear.flow r hr).1, Nat.le_add_right_of_le (hclear.flow r hr).2⟩ }
  simp only [State.portDestroy]
  generalize hs : (s.clearReceiver p).rouse p (s.blocked p).length = s' at h'
  have hblocked : s'.blocked p = [] := by
    rw [← hs, (rouse_frame _).2.2, clearReceiver_frame.2, List.drop_length]
  have hother : ∀ r, update s'.active p false r = true → s'.active r := by
    intro r hr
    by_cases hrp : r = p
    · simp [hrp] at hr
    · simpa [hrp] using hr
  exact {
    h' with
    dead := fun r hr => by
      by_cases hrp : r = p
      · subst hrp
        refine ⟨by simp, ?_⟩
        rw [← hs, (rouse_frame _).1, clearReceiver_frame.1]
      · simpa [hrp] using h'.dead r (by simpa [hrp] using hr)
    home := fun r m hm => by
      obtain ⟨hm₁, hm₂⟩ := h'.home r m hm
      refine ⟨?_, hm₂⟩
      by_cases hmp : m.remote = p
      · simp [hmp]
      · simpa [hmp] using hm₁
    order := fun r hr => h'.order r (hother r hr)
    count := fun r hr => h'.count r (hother r hr)
    flow := fun r hr => by
      have hrp : r ≠ p := by
        rintro rfl
        exact hr hblocked
      simpa [hrp] using h'.flow r hr }

theorem drain (h : Inv s [] [] 0) (hp : s.draining p) : Inv (s.drain p) [] [] 0 := by
  obtain ⟨hdead, hset⟩ := h.dead p hp
  have hq : s.mqueue p = .port p := by rw [State.mqueue, hset]
  rw [State.drain]
  split
  · next hnil =>
    exact {
      h with
      dead := fun r hr => h.dead r (by
        by_cases hrp : r = p
        · simp [hrp] at hr
        · simpa [hrp] using hr)
      home := fun r m hm => by
        obtain ⟨hm₁, hm₂⟩ := h.home r m hm
        have hmp : m.remote ≠ p := by
          rintro rfl
          rw [← hm₂, hq, hnil] at hm
          cases hm
        exact ⟨by simpa [hmp] using hm₁, hm₂⟩ }
  · next m ms hmsg =>
    have hline : ∀ r, r ≠ p → line { s with messages := update s.messages (.port p) ms } [] [] r =
        line s [] [] r := by
      intro r hr
      rw [line_nil, line_nil]
      change (update s.messages (.port p) ms (s.mqueue r)).filter (·.remote = r) = _
      rw [update_of_ne fun hq => hr (mqueue_eq_port hq), State.pending]
    have hother : ∀ r, s.active r → r ≠ p := by
      rintro r hr rfl
      rw [hdead] at hr
      cases hr
    have hsub : ∀ r, update s.messages (.port p) ms r ⊆ s.messages r := by
      intro r
      by_cases hrq : r = .port p
      · subst hrq
        simp [hmsg]
      · simp [hrq]
    exact {
      h with
      idle := fun r hr => List.subset_nil.mp (h.idle r hr ▸ hsub r)
      home := fun r m hm => h.home r m (hsub r hm)
      order := fun r hr => (hline r (hother r hr)).symm ▸ h.order r hr
      count := fun r hr => (hline r (hother r hr)).symm ▸ h.count r hr }

theorem step {s' : State} {e : Event} (h : Inv s [] [] 0) (hstep : step s e = some s') :
    Inv s' [] [] 0 := by
  cases e <;> simp only [Mqueue.step, Option.ite_none_right_eq_some, Option.some.injEq] at hstep
  case send t m always poll =>
    refine hstep ▸ trySend (d := 0) ?_ (Nat.zero_le 1) fun _ => rfl
    rw [Pi.single_zero]
    exact h
  case sendRetry t m =>
    exact hstep.2 ▸ h.sendRetry hstep.1
  case sendResume t m timedOut =>
    exact hstep.2 ▸ h.sendResume
  case receive t q poll =>
    exact hstep.2 ▸ h.tryReceive
  case receiveResume t q timedOut =>
    exact hstep.2 ▸ h.receiveResume
  case finishReceive t m =>
    exact hstep.2 ▸ h.finishReceive hstep.1
  case hotReceive t m =>
    exact hstep.2 ▸ h.hotReceive hstep.1
  case setQlimit p qlimit =>
    exact hstep.2 ▸ h.setQlimit
  case psetMove p nset =>
    exact hstep.2 ▸ h.psetMove hstep.1.1
  case clearReceiver p =>
    exact hstep.2 ▸ h.clearReceiver hstep.1
  case portDestroy p =>
    exact hstep.2 ▸ h.portDestroy hstep.1
  case drain p =>
    exact hstep.2 ▸ h.drain hstep.1
  case psetDestroy set =>
    rw [← hstep.2]
    exact (show Inv { s with alive := update s.alive set false } [] [] 0 from { h with }).fewer
      fun _ => rfl

end Inv

variable {qlimit : ℕ → ℕ} {events : List Event} {s : State}

theorem reachable_inv (hrun : runSteps step (start qlimit) events = some s) : Inv s [] [] 0 :=
  @runSteps_invariant _ _ _ (Inv · [] [] 0) _ _ _ (fun _ _ _ h => h.step) (start_inv qlimit) hrun

/-- A port with room for one message is put into a set while senders wait. -/
def crowded : List Event :=
  [.send 1 ⟨0, 5⟩ false false, .send 2 ⟨0, 6⟩ false false, .send 3 ⟨0, 7⟩ false false,
    .psetMove 0 (some 9), .receive 4 (.pset 9) false, .finishReceive 4 ⟨0, 5⟩]

theorem crowded_run : ∃ s, runSteps step (start fun _ => 1) crowded = some s ∧
    s.active 0 = true ∧ s.taken 0 = [⟨0, 5⟩] ∧ s.blocked 0 = [(3, ⟨0, 7⟩)] := by
  have hrun : (runSteps step (start fun _ => 1) crowded).map
      (fun s => (s.active 0, s.taken 0, s.blocked 0)) =
        some (true, [⟨0, 5⟩], [(3, ⟨0, 7⟩)]) := by decide
  simpa only [Option.map_eq_some_iff, Prod.mk.injEq] using hrun

/-- Receivers get the messages of a port in the order in which they came in: what they have not
got is, in that order, in the queue of the port or of its set, and nowhere else.  The messages in
the queues are those of live ports and of ports that are just being destroyed. -/
theorem messages_in_order (hrun : runSteps step (start qlimit) events = some s) :
    (∀ p, s.active p → s.accepted p = s.taken p ++ s.pending p) ∧
      ∀ q, ∀ m ∈ s.messages q, (s.active m.remote ∨ s.draining m.remote) ∧
        s.mqueue m.remote = q := by
  have h := reachable_inv hrun
  exact ⟨fun p hp => by simpa using h.order p hp, h.home⟩

theorem messages_in_order_crowded : ∃ s, runSteps step (start fun _ => 1) crowded = some s ∧
    s.taken 0 ≠ [] ∧ s.accepted 0 = s.taken 0 ++ s.pending 0 := by
  obtain ⟨s, hrun, hact, htaken, -⟩ := crowded_run
  exact ⟨s, hrun, by simp [htaken], (messages_in_order hrun).1 0 hact⟩

/-- `ip_msgcount` is the number of messages that are queued or with a receiver that has not
finished, and no thread waits at a queue that has a message. -/
theorem msgcount_exact (hrun : runSteps step (start qlimit) events = some s) :
    (∀ p, s.active p → s.msgcount p = (s.received p).length + (s.pending p).length) ∧
      ∀ q, s.threads q ≠ [] → s.messages q = [] := by
  have h := reachable_inv hrun
  exact ⟨fun p hp => by simpa using h.count p hp, h.idle⟩

theorem msgcount_exact_crowded : ∃ s, runSteps step (start fun _ => 1) crowded = some s ∧
    s.active 0 ∧ s.msgcount 0 = (s.received 0).length + (s.pending 0).length := by
  obtain ⟨s, hrun, hact, -⟩ := crowded_run
  exact ⟨s, hrun, hact, (msgcount_exact hrun).1 0 hact⟩

/-- A sender waits only at an active port, and only while the messages that are queued or with a
receiver, the senders that were woken and will try again, and the receives that ended on the hot
path reach the limit: where no receive does, no wake-up is lost. -/
theorem senders_not_stranded (hrun : runSteps step (start qlimit) events = some s) (p : ℕ)
    (hp : s.blocked p ≠ []) : s.active p ∧
    s.qlimit p ≤ (s.received p).length + (s.pending p).length + (s.roused p).length +
      s.unnoticed p := by
  have h := reachable_inv hrun
  obtain ⟨hact, hle⟩ := h.flow p hp
  rw [h.count p hact, line_nil] at hle
  exact ⟨hact, hle⟩

theorem senders_not_stranded_crowded : ∃ s,
    runSteps step (start fun _ => 1) crowded = some s ∧ s.blocked 0 ≠ [] ∧
      s.qlimit 0 ≤ (s.received 0).length + (s.pending 0).length + (s.roused 0).length +
        s.unnoticed 0 := by
  obtain ⟨s, hrun, -, -, hblocked⟩ := crowded_run
  have hp : s.blocked 0 ≠ [] := by simp [hblocked]
  exact ⟨s, hrun, hp, (senders_not_stranded hrun 0 hp).2⟩

-- A sender that the hot path leaves waiting at an empty queue.
example : (runSteps step (start fun _ => 1) [.send 1 ⟨0, 5⟩ false false,
    .send 2 ⟨0, 6⟩ false false, .receive 4 (.port 0) false, .hotReceive 4 ⟨0, 5⟩]).map
      (fun s => (s.blocked 0, s.msgcount 0, s.roused 0, s.unnoticed 0)) =
    some ([(2, ⟨0, 6⟩)], 0, [], 1) := by decide

end Uros.Ipc.Mqueue
