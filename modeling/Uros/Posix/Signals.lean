import Uros.Foundation.Transition
import Mathlib.Data.List.Basic
import Mathlib.Logic.Function.Basic

/-!
Signals of the POSIX library: the table of actions, the mask and the thread that receives
signal messages, next to what POSIX asks of them.

The library is translated as it is; `PosixSignals` is the meaning, with signals that wait
while they are blocked.  Each call and each message runs on both, and the results are
compared.
-/

namespace Uros.Posix

open Uros.Foundation

inductive Handler where
  | dfl
  | ign
  | user (h : ℕ)
  deriving DecidableEq, Repr

structure SigAction where
  handler : Handler
  flags : UInt32
  mask : BitVec 64
  deriving DecidableEq, Repr

def nsig : ℕ := 32

def sigKill : ℕ := 9

def sigStop : ℕ := 19

inductive Deed where
  | runs (h signo : ℕ)
  | exits (signo : ℕ)
  | stops (signo : ℕ)
  deriving DecidableEq, Repr

inductive DefaultAction where
  | terminate
  | ignore
  | stop
  deriving DecidableEq, Repr

def sigDefault (signo : ℕ) : Option DefaultAction :=
  if 1 ≤ signo ∧ signo ≤ 15 then some .terminate
  else if signo = 17 ∨ signo = 18 then some .ignore
  else if signo = 19 ∨ signo = 20 then some .stop
  else none

structure SigState where
  actions : ℕ → SigAction
  mask : BitVec 64
  initialised : Bool

namespace SigState

def sigaction (s : SigState) (signo : Int) (act : Option SigAction) : SigState :=
  if signo ≤ 0 ∨ (nsig : Int) ≤ signo then s
  else if signo = sigKill ∨ signo = sigStop then s
  else
    match act with
    | some act => { s with actions := Function.update s.actions signo.toNat act }
    | none => s

inductive MaskHow where
  | block
  | unblock
  | setmask
  | invalid
  deriving DecidableEq, Repr

def sigprocmask (s : SigState) (how : MaskHow) (set : Option (BitVec 64)) (setsize : ℕ) :
    SigState :=
  if setsize ≠ 8 then s
  else
    match set with
    | none => s
    | some set =>
      let cur :=
        match how with
        | .block => some (s.mask ||| set)
        | .unblock => some (s.mask &&& ~~~set)
        | .setmask => some set
        | .invalid => none
      match cur with
      | none => s
      | some cur =>
        { s with mask :=
            cur &&& ~~~BitVec.twoPow 64 (sigKill - 1) &&& ~~~BitVec.twoPow 64 (sigStop - 1) }

def sigLoop (s : SigState) (known : Bool) (signo : Int) : List Deed :=
  if !known then []
  else if signo ≤ 0 ∨ (nsig : Int) ≤ signo then []
  else
    match (s.actions signo.toNat).handler with
    | .ign => []
    | .dfl => if sigDefault signo.toNat = some .terminate then [.exits signo.toNat] else []
    | .user h => [.runs h signo.toNat]

def signalsInit (s : SigState) : SigState :=
  if s.initialised then s
  else
    { actions := fun i =>
        if i < nsig then { s.actions i with handler := .dfl } else s.actions i
      mask := 0
      initialised := true }

def postForkInit (s : SigState) : SigState := { s with initialised := false }.signalsInit

def handler (s : SigState) (signo : ℕ) : Handler := (s.actions signo).handler

def blocked (s : SigState) (signo : ℕ) : Bool := s.mask.getLsbD (signo - 1)

def init : SigState where
  actions _ := ⟨.dfl, 0, 0⟩
  mask := 0
  initialised := true

end SigState

structure PosixSignals where
  action : ℕ → Handler
  blocked : ℕ → Bool
  pending : List ℕ

def posixDefault (signo : ℕ) : DefaultAction :=
  if signo = 17 ∨ signo = 18 ∨ signo = 23 ∨ signo = 28 then .ignore
  else if 19 ≤ signo ∧ signo ≤ 22 then .stop
  else .terminate

def catchable (signo : Int) : Prop :=
  0 < signo ∧ signo < nsig ∧ signo ≠ sigKill ∧ signo ≠ sigStop

instance decidableCatchable (signo : Int) : Decidable (catchable signo) :=
  inferInstanceAs (Decidable (_ ∧ _))

namespace PosixSignals

def act (handler : Handler) (signo : ℕ) : List Deed :=
  match handler with
  | .ign => []
  | .user h => [.runs h signo]
  | .dfl =>
    match posixDefault signo with
    | .terminate => [.exits signo]
    | .stop => [.stops signo]
    | .ignore => []

def sigaction (p : PosixSignals) (signo : Int) (act : Option SigAction) : PosixSignals :=
  match act with
  | some act =>
    if catchable signo then
      { p with action := Function.update p.action signo.toNat act.handler }
    else p
  | none => p

def masked (p : PosixSignals) (how : SigState.MaskHow) (set : BitVec 64) (signo : ℕ) : Bool :=
  let inSet := set.getLsbD (signo - 1)
  match how with
  | .block => (p.blocked signo || inSet) && signo != sigKill && signo != sigStop
  | .unblock => p.blocked signo && !inSet && signo != sigKill && signo != sigStop
  | .setmask => inSet && signo != sigKill && signo != sigStop
  | .invalid => p.blocked signo

def sigprocmask (p : PosixSignals) (how : SigState.MaskHow) (set : Option (BitVec 64))
    (setsize : ℕ) : PosixSignals × List Deed :=
  match set with
  | some set =>
    if setsize = 8 then
      let blocked := p.masked how set
      ({ p with blocked, pending := p.pending.filter fun signo => blocked signo },
        (p.pending.filter fun signo => !blocked signo).flatMap fun signo =>
          act (p.action signo) signo)
    else (p, [])
  | none => (p, [])

def signal (p : PosixSignals) (known : Bool) (signo : Int) : PosixSignals × List Deed :=
  if known = true ∧ 0 < signo ∧ signo < nsig then
    if p.blocked signo.toNat then
      ({ p with pending := p.pending.insert signo.toNat }, [])
    else (p, act (p.action signo.toNat) signo.toNat)
  else (p, [])

def child (p : PosixSignals) : PosixSignals := { p with pending := [] }

def init : PosixSignals where
  action _ := .dfl
  blocked _ := false
  pending := []

end PosixSignals

structure Process where
  lib : SigState
  posix : PosixSignals

inductive SigEvent where
  | sigaction (signo : Int) (act : Option SigAction)
  | sigprocmask (how : SigState.MaskHow) (set : Option (BitVec 64)) (setsize : ℕ)
  | signal (known : Bool) (signo : Int)
  | fork

namespace Process

def libDeeds (p : Process) : SigEvent → List Deed
  | .signal known signo => p.lib.sigLoop known signo
  | _ => []

def posixDeeds (p : Process) : SigEvent → List Deed
  | .sigprocmask how set setsize => (p.posix.sigprocmask how set setsize).2
  | .signal known signo => (p.posix.signal known signo).2
  | _ => []

def next (p : Process) : SigEvent → Process
  | .sigaction signo act => ⟨p.lib.sigaction signo act, p.posix.sigaction signo act⟩
  | .sigprocmask how set setsize =>
    ⟨p.lib.sigprocmask how set setsize, (p.posix.sigprocmask how set setsize).1⟩
  | .signal known signo => ⟨p.lib, (p.posix.signal known signo).1⟩
  | .fork => p

def child (p : Process) : Process := ⟨p.lib.postForkInit, p.posix.child⟩

structure Agrees (p : Process) : Prop where
  action : ∀ signo, 0 < signo → signo < nsig → p.lib.handler signo = p.posix.action signo
  blocked : ∀ signo, 0 < signo → signo < nsig → p.lib.blocked signo = p.posix.blocked signo
  pending : p.posix.pending = []

end Process

def sigStep (procs : List Process) (e : ℕ × SigEvent) : Option (List Process) :=
  (procs[e.1]?).map fun p =>
    procs.set e.1 (p.next e.2) ++ if e.2 matches .fork then [p.child] else []

/-- The library does what POSIX asks for, and a child starts with the actions and the mask of its
parent.  No signal has a number from `nsig` on. -/
def Honoured (procs : List Process) (e : ℕ × SigEvent) : Prop :=
  ∀ p ∈ procs[e.1]?, p.libDeeds e.2 = p.posixDeeds e.2 ∧
    (e.2 = .fork → ∀ signo, 0 < signo → signo < nsig →
      p.child.lib.actions signo = p.lib.actions signo ∧
        p.child.lib.blocked signo = p.lib.blocked signo)

/-- A signal arrives while it is not blocked and, where its action is the default, has one that
the library carries out; a process forks with all actions default and nothing blocked. -/
def Prompt (procs : List Process) (e : ℕ × SigEvent) : Prop :=
  ∀ p ∈ procs[e.1]?,
    match e.2 with
    | .signal known signo => known = true → 0 < signo → signo < nsig →
        p.lib.blocked signo.toNat = false ∧
          (p.lib.handler signo.toNat = .dfl → posixDefault signo.toNat = .ignore ∨
            posixDefault signo.toNat = .terminate ∧ signo ≤ 15)
    | .fork => ∀ signo < nsig, 0 < signo →
        p.lib.handler signo = .dfl ∧ p.lib.blocked signo = false
    | _ => True

instance decidablePrompt (procs : List Process) : DecidablePred (Prompt procs)
  | (i, .signal known signo) => inferInstanceAs (Decidable (∀ p ∈ procs[i]?,
      known = true → 0 < signo → signo < nsig → p.lib.blocked signo.toNat = false ∧
        (p.lib.handler signo.toNat = .dfl → posixDefault signo.toNat = .ignore ∨
          posixDefault signo.toNat = .terminate ∧ signo ≤ 15)))
  | (i, .fork) => inferInstanceAs (Decidable (∀ p ∈ procs[i]?, ∀ signo < nsig, 0 < signo →
      p.lib.handler signo = .dfl ∧ p.lib.blocked signo = false))
  | (_, .sigaction ..) => .isTrue fun _ _ => trivial
  | (_, .sigprocmask ..) => .isTrue fun _ _ => trivial

namespace SigState

theorem getLsbD_delset (cur : BitVec 64) {signo : ℕ} (hpos : 0 < signo) (hlt : signo < nsig) :
    (cur &&& ~~~BitVec.twoPow 64 (sigKill - 1) &&& ~~~BitVec.twoPow 64 (sigStop - 1)).getLsbD
      (signo - 1) = (cur.getLsbD (signo - 1) && signo != sigKill && signo != sigStop) := by
  have hlow : signo - 1 < 64 := by
    simp only [nsig] at hlt
    omega
  by_cases h9 : signo = 9
  · subst h9
    simp [sigKill, sigStop]
  · by_cases h19 : signo = 19
    · subst h19
      simp [sigKill, sigStop]
    · have hkill : signo - 1 ≠ 8 := by omega
      have hstop : signo - 1 ≠ 18 := by omega
      simp [sigKill, sigStop, hlow, bne_iff_ne.mpr h9, bne_iff_ne.mpr h19, hkill, hstop]

theorem blocked_sigprocmask {s : SigState} {p : PosixSignals} {how : MaskHow} {set : BitVec 64}
    {signo : ℕ} (hpos : 0 < signo) (hlt : signo < nsig)
    (hagree : s.blocked signo = p.blocked signo) :
    (s.sigprocmask how (some set) 8).blocked signo = p.masked how set signo := by
  have hlow : signo - 1 < 64 := by
    simp only [nsig] at hlt
    omega
  unfold blocked at hagree ⊢
  cases how with
  | block =>
    refine (getLsbD_delset _ hpos hlt).trans ?_
    rw [BitVec.getLsbD_or, hagree]
    rfl
  | unblock =>
    refine (getLsbD_delset _ hpos hlt).trans ?_
    rw [BitVec.getLsbD_and, BitVec.getLsbD_not, hagree]
    simp [PosixSignals.masked, hlow]
  | setmask => exact getLsbD_delset _ hpos hlt
  | invalid => exact hagree

theorem handler_sigprocmask (s : SigState) (how : MaskHow) (set : Option (BitVec 64))
    (setsize : ℕ) : (s.sigprocmask how set setsize).handler = s.handler := by
  unfold sigprocmask
  split
  · rfl
  · split
    · rfl
    · dsimp only
      split
      · rfl
      · rfl

theorem sigLoop_eq_act {s : SigState} {signo : Int} (hpos : 0 < signo) (hlt : signo < nsig)
    (hserved : s.handler signo.toNat = .dfl → posixDefault signo.toNat = .ignore ∨
      posixDefault signo.toNat = .terminate ∧ signo ≤ 15) :
    s.sigLoop true signo = PosixSignals.act (s.handler signo.toNat) signo.toNat := by
  unfold sigLoop
  rw [if_neg (by decide), if_neg (by omega)]
  unfold PosixSignals.act handler at *
  split
  · next h => simp [h]
  · next h =>
    rw [h]
    dsimp only
    rcases hserved h with hign | ⟨hterm, hle⟩
    · -- the ignored signals have no entry that terminates
      rw [hign, if_neg]
      unfold sigDefault
      unfold posixDefault at hign
      split at hign
      · split
        · omega
        · split <;> simp
      · split at hign <;> cases hign
    · have hentry : sigDefault signo.toNat = some .terminate := by
        unfold sigDefault
        rw [if_pos (by omega)]
      rw [hterm, hentry, if_pos rfl]
  · next h => simp [h]

theorem actions_postForkInit {s : SigState} {signo : ℕ} (hlt : signo < nsig) :
    s.postForkInit.actions signo = { s.actions signo with handler := .dfl } := by
  simp [postForkInit, signalsInit, hlt]

theorem handler_postForkInit {s : SigState} {signo : ℕ} (hlt : signo < nsig) :
    s.postForkInit.handler signo = .dfl := by
  rw [handler, actions_postForkInit hlt]

theorem blocked_postForkInit {s : SigState} {signo : ℕ} :
    s.postForkInit.blocked signo = false := by
  simp [postForkInit, signalsInit, blocked]

end SigState

namespace Process

variable {p : Process}

theorem Agrees.sigaction (h : p.Agrees) (signo : Int) (act : Option SigAction) :
    (p.next (.sigaction signo act)).Agrees := by
  cases act with
  | none =>
    have hlib : p.lib.sigaction signo none = p.lib := by
      unfold SigState.sigaction
      split
      · rfl
      · split <;> rfl
    constructor
    · show ∀ n, _ → _ → (p.lib.sigaction signo none).handler n = _
      rw [hlib]
      exact h.action
    · show ∀ n, _ → _ → (p.lib.sigaction signo none).blocked n = _
      rw [hlib]
      exact h.blocked
    · exact h.pending
  | some act =>
    by_cases hcatch : catchable signo
    · have hlib : p.lib.sigaction signo (some act) =
          { p.lib with actions := Function.update p.lib.actions signo.toNat act } := by
        obtain ⟨hpos, hlt, hkill, hstop⟩ := hcatch
        unfold SigState.sigaction
        rw [if_neg (by omega), if_neg (by tauto)]
      have hposix : p.posix.sigaction signo (some act) =
          { p.posix with action := Function.update p.posix.action signo.toNat act.handler } :=
        if_pos hcatch
      refine ⟨fun n hpos hlt => ?_, fun n hpos hlt => ?_, ?_⟩
      · simp only [next, hlib, hposix, SigState.handler, Function.update_apply]
        split
        · rfl
        · exact h.action n hpos hlt
      · simp only [next, hlib, hposix]
        exact h.blocked n hpos hlt
      · simp only [next, hposix]
        exact h.pending
    · have hlib : p.lib.sigaction signo (some act) = p.lib := by
        unfold SigState.sigaction
        unfold catchable at hcatch
        split
        · rfl
        · rw [if_pos]
          by_contra hnot
          exact hcatch ⟨by omega, by omega, by tauto, by tauto⟩
      have hposix : p.posix.sigaction signo (some act) = p.posix := if_neg hcatch
      have hnext : p.next (.sigaction signo (some act)) = p := by
        simp only [next, hlib, hposix]
      rw [hnext]
      exact h

theorem Agrees.sigprocmask (h : p.Agrees) (how : SigState.MaskHow) (set : Option (BitVec 64))
    (setsize : ℕ) :
    (p.next (.sigprocmask how set setsize)).Agrees ∧
      (p.posix.sigprocmask how set setsize).2 = [] := by
  cases set with
  | none =>
    have hnext : p.next (.sigprocmask how none setsize) = p := by
      simp [next, SigState.sigprocmask, PosixSignals.sigprocmask]
    rw [hnext]
    exact ⟨h, rfl⟩
  | some set =>
    by_cases hsize : setsize = 8
    · subst hsize
      refine ⟨⟨fun n hpos hlt => ?_, fun n hpos hlt => ?_, ?_⟩, ?_⟩
      · simp only [next, SigState.handler_sigprocmask]
        exact h.action n hpos hlt
      · exact SigState.blocked_sigprocmask hpos hlt (h.blocked n hpos hlt)
      · simp [next, PosixSignals.sigprocmask, h.pending]
      · simp [PosixSignals.sigprocmask, h.pending]
    · have hnext : p.next (.sigprocmask how (some set) setsize) = p := by
        simp [next, SigState.sigprocmask, PosixSignals.sigprocmask, hsize]
      rw [hnext]
      exact ⟨h, by simp [PosixSignals.sigprocmask, hsize]⟩

theorem Agrees.next (h : p.Agrees) {procs : List Process} {e : ℕ × SigEvent}
    (hp : procs[e.1]? = some p) (hprompt : Prompt procs e) :
    (p.next e.2).Agrees ∧ p.libDeeds e.2 = p.posixDeeds e.2 := by
  have hprompt := hprompt p hp
  obtain ⟨i, event⟩ := e
  cases event with
  | sigaction signo act => exact ⟨h.sigaction signo act, rfl⟩
  | sigprocmask how set setsize =>
    obtain ⟨hagrees, hnone⟩ := h.sigprocmask how set setsize
    exact ⟨hagrees, hnone.symm⟩
  | fork => exact ⟨h, rfl⟩
  | signal known signo =>
    by_cases hvalid : known = true ∧ 0 < signo ∧ signo < nsig
    · obtain ⟨rfl, hpos, hlt⟩ := hvalid
      obtain ⟨hfree, hserved⟩ := hprompt rfl hpos hlt
      have hpos' : 0 < signo.toNat := by omega
      have hlt' : signo.toNat < nsig := by omega
      have hsignal : p.posix.signal true signo =
          (p.posix, PosixSignals.act (p.posix.action signo.toNat) signo.toNat) := by
        unfold PosixSignals.signal
        rw [if_pos ⟨rfl, hpos, hlt⟩, if_neg]
        rw [← h.blocked _ hpos' hlt', hfree]
        decide
      refine ⟨?_, ?_⟩
      · simp only [Process.next, hsignal]
        exact h
      · simp only [libDeeds, posixDeeds, hsignal, SigState.sigLoop_eq_act hpos hlt hserved,
          h.action _ hpos' hlt']
    · have hsignal : p.posix.signal known signo = (p.posix, []) := if_neg hvalid
      refine ⟨?_, ?_⟩
      · simp only [Process.next, hsignal]
        exact h
      · simp only [libDeeds, posixDeeds, hsignal, SigState.sigLoop]
        split
        · rfl
        · next hknown =>
          rw [if_pos]
          by_contra hnot
          exact hvalid ⟨by simpa using hknown, by omega, by omega⟩

theorem Agrees.child (h : p.Agrees)
    (hdefault : ∀ signo < nsig, 0 < signo → p.lib.handler signo = .dfl ∧
      p.lib.blocked signo = false) : p.child.Agrees where
  action signo hpos hlt := by
    show p.lib.postForkInit.handler signo = p.posix.action signo
    rw [SigState.handler_postForkInit hlt, ← h.action signo hpos hlt, (hdefault signo hlt hpos).1]
  blocked signo hpos hlt := by
    show p.lib.postForkInit.blocked signo = p.posix.blocked signo
    rw [SigState.blocked_postForkInit, ← h.blocked signo hpos hlt, (hdefault signo hlt hpos).2]
  pending := rfl

end Process

theorem agrees_sigStep {procs procs' : List Process} {e : ℕ × SigEvent}
    (h : ∀ p ∈ procs, p.Agrees) (hprompt : Prompt procs e) (hstep : sigStep procs e = some procs') :
    ∀ p ∈ procs', p.Agrees := by
  obtain ⟨p, hp, rfl⟩ := Option.map_eq_some_iff.mp hstep
  have hagrees := h p (List.mem_of_getElem? hp)
  intro q hq
  rcases List.mem_append.mp hq with hset | hchild
  · rcases List.mem_or_eq_of_mem_set hset with hold | rfl
    · exact h q hold
    · exact (hagrees.next hp hprompt).1
  · obtain ⟨i, event⟩ := e
    cases event with
    | fork =>
      simp only [if_true, List.mem_singleton] at hchild
      rw [hchild]
      exact hagrees.child (hprompt p hp)
    | sigaction signo act => simp at hchild
    | sigprocmask how set setsize => simp at hchild
    | signal known signo => simp at hchild

theorem honoured_of_prompt {procs : List Process} {e : ℕ × SigEvent} (h : ∀ p ∈ procs, p.Agrees)
    (hprompt : Prompt procs e) : Honoured procs e := by
  intro p hp
  refine ⟨((h p (List.mem_of_getElem? hp)).next hp hprompt).2, fun hfork signo hpos hlt => ?_⟩
  have hdefault := hprompt p hp
  rw [hfork] at hdefault
  obtain ⟨hhandler, hblocked⟩ := hdefault signo hlt hpos
  refine ⟨(SigState.actions_postForkInit hlt).trans ?_,
    SigState.blocked_postForkInit.trans hblocked.symm⟩
  rw [← hhandler]
  rfl

def Process.init : Process := ⟨.init, .init⟩

/-- In every sequence of calls, forks and signal messages in which signals arrive unblocked and
with an action that the library carries out, and processes fork with nothing installed or
blocked, every step does what POSIX asks for. -/
theorem signals_honoured {events : List (ℕ × SigEvent)}
    (hmeet : StepsMeet sigStep Prompt [Process.init] events) :
    StepsMeet sigStep Honoured [Process.init] events := by
  apply hmeet.of_invariant (fun procs => ∀ p ∈ procs, p.Agrees)
  · exact fun _ _ _ h hprompt hstep => agrees_sigStep h hprompt hstep
  · exact fun _ _ h hprompt => honoured_of_prompt h hprompt
  · intro p hp
    rw [List.mem_singleton.mp hp]
    refine ⟨fun _ _ _ => rfl, fun signo _ _ => ?_, rfl⟩
    simp [Process.init, SigState.init, SigState.blocked, PosixSignals.init]

def promptRun : List (ℕ × SigEvent) :=
  [(0, .fork), (1, .sigaction 10 (some ⟨.user 77, 0, 0⟩)),
    (1, .sigprocmask .block (some 0x200) 8), (1, .sigprocmask .unblock (some 0x200) 8),
    (1, .signal true 10), (0, .signal true 15)]

theorem signals_honoured_prompt_run : StepsMeet sigStep Honoured [Process.init] promptRun :=
  signals_honoured (by decide +kernel)

def blockedRun : List (ℕ × SigEvent) :=
  [(0, .sigaction 10 (some ⟨.user 77, 0, 0⟩)), (0, .sigprocmask .block (some 0x200) 8)]

/-- The handler of a blocked signal runs as soon as the signal arrives, and a forked child has
neither the handler nor the mask. -/
theorem blocked_signal_is_handled :
    ∃ p, runSteps sigStep [Process.init] blockedRun = some [p] ∧
      p.lib.blocked 10 = true ∧ p.libDeeds (.signal true 10) = [.runs 77 10] ∧
      p.child.lib.handler 10 = .dfl ∧ p.child.lib.blocked 10 = false ∧
      ¬ Honoured [p] (0, .signal true 10) ∧ ¬ Honoured [p] (0, .fork) := by
  refine ⟨_, rfl, by decide, by decide, by decide, by decide, fun h => ?_, fun h => ?_⟩
  · have hdeeds := (h _ rfl).1
    revert hdeeds
    decide
  · have hhandler := ((h _ rfl).2 rfl 10 (by decide) (by decide)).1
    revert hhandler
    decide

end Uros.Posix
