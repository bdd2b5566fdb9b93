import Mathlib.Algebra.Ring.Nat
import Uros.Proc.Server

/-!
What the handlers of the process server leave alone.

Signal delivery only touches stop flags, signal ports and the kernel's side; this is
said once, as a relation between the states before and after, and every later invariant
about identities, groups and exit codes takes it from here.
-/

namespace Uros.Proc

open Uros.Foundation

variable {s s' s'' : ProcSystem} {i j : Fin maxTasks} {e f : PidEntry} {pid : Pid}

/-! ## Exit codes in the outbox -/

def OutMsg.handedPid : OutMsg → Option Pid
  | .exit _ pid _ => some pid
  | .reaped pid _ => some pid
  | .signal _ _ _ => none
  | .cttyRelease _ _ => none

def ProcSystem.handed (s : ProcSystem) : List Pid :=
  s.outbox.filterMap OutMsg.handedPid

@[simp] theorem handed_post (m : OutMsg) :
    (s.post m).handed = s.handed ++ (OutMsg.handedPid m).toList := by
  cases h : OutMsg.handedPid m <;> simp [ProcSystem.handed, ProcSystem.post, h]

@[simp] theorem handed_clear : (s.clear i).handed = s.handed := rfl

@[simp] theorem handed_modify (g : PidEntry → PidEntry) : (s.modify i g).handed = s.handed := rfl

@[simp] theorem alive_clear (p : PortName) : (s.clear i).alive p = s.alive p := rfl

@[simp] theorem alive_modify (g : PidEntry → PidEntry) (p : PortName) :
    (s.modify i g).alive p = s.alive p := rfl

@[simp] theorem alive_post (m : OutMsg) (p : PortName) : (s.post m).alive p = s.alive p := rfl

/-! ## The table after one operation -/

@[simp] theorem modify_pidTable (g : PidEntry → PidEntry) :
    (s.modify i g).pidTable = s.pidTable.modify i g := rfl

@[simp] theorem clear_pidTable : (s.clear i).pidTable = Function.update s.pidTable i none := rfl

@[simp] theorem post_pidTable (m : OutMsg) : (s.post m).pidTable = s.pidTable := rfl

section Messages

variable (p : PortName) (m : OutMsg)

@[simp] theorem send_pidTable : (send s p m).1.pidTable = s.pidTable := by
  unfold send
  split <;> rfl

@[simp] theorem send_nextPid : (send s p m).1.nextPid = s.nextPid := by
  unfold send
  split <;> rfl

@[simp] theorem send_suspends : (send s p m).1.suspends = s.suspends := by
  unfold send
  split <;> rfl

@[simp] theorem send_dead : (send s p m).1.dead = s.dead := by
  unfold send
  split <;> rfl

theorem fireExitNotify_frame (pid : Pid) (code : Int) :
    (fireExitNotify s p pid code).pidTable = s.pidTable ∧
      (fireExitNotify s p pid code).nextPid = s.nextPid ∧
      (fireExitNotify s p pid code).dead = s.dead ∧
      (fireExitNotify s p pid code).suspends = s.suspends := by
  unfold fireExitNotify
  split <;> simp

theorem notifyCttyRelease_frame (sid : Pid) :
    (notifyCttyRelease s p sid).pidTable = s.pidTable ∧
      (notifyCttyRelease s p sid).nextPid = s.nextPid ∧
      (notifyCttyRelease s p sid).dead = s.dead ∧
      (notifyCttyRelease s p sid).suspends = s.suspends := by
  unfold notifyCttyRelease
  split <;> simp

theorem notifyParent_frame (pid : Pid) :
    (notifyParent s p pid).pidTable = s.pidTable ∧
      (notifyParent s p pid).nextPid = s.nextPid ∧ (notifyParent s p pid).dead = s.dead ∧
      (notifyParent s p pid).suspends = s.suspends := by
  unfold notifyParent sendSignalMsg
  split <;> simp

end Messages

theorem findByPid_some {t : PidTable} (h : findByPid t pid = some (i, e)) :
    t i = some e ∧ e.pid = pid := by
  obtain ⟨hi, hp⟩ := SlotTable.find_some h
  exact ⟨hi, beq_iff_eq.mp hp⟩

theorem findByTask_some {t : PidTable} {task : PortName}
    (h : findByTask t task = some (i, e)) : t i = some e ∧ e.taskPort = task := by
  obtain ⟨hi, hp⟩ := SlotTable.find_some h
  exact ⟨hi, beq_iff_eq.mp hp⟩

theorem findSessionLeader_some {t : PidTable} {sid : Pid}
    (h : findSessionLeader t sid = some (i, e)) :
    t i = some e ∧ e.pid = sid ∧ e.sid = sid := by
  unfold findSessionLeader at h
  split at h
  · cases h
  · split at h
    · next k f hf =>
      split at h
      · next hsid =>
        simp only [Option.some.injEq, Prod.mk.injEq] at h
        obtain ⟨rfl, rfl⟩ := h
        exact ⟨(findByPid_some hf).1, (findByPid_some hf).2, hsid⟩
      · cases h
    · cases h

/-! ## Messages and signal ports -/

def PidEntry.portless (e : PidEntry) : PidEntry :=
  { e with signalPort := portNull }

structure OnlyPorts (s s' : ProcSystem) : Prop where
  table : ∀ i, (s'.pidTable i).map PidEntry.portless = (s.pidTable i).map PidEntry.portless
  nextPid : s'.nextPid = s.nextPid
  handed : s'.handed = s.handed
  dead : ∀ p, s.dead p = true → s'.dead p = true
  suspends : s'.suspends = s.suspends

namespace OnlyPorts

theorem refl (s : ProcSystem) : OnlyPorts s s :=
  ⟨fun _ => rfl, rfl, rfl, fun _ h => h, rfl⟩

theorem trans (h₁ : OnlyPorts s s') (h₂ : OnlyPorts s' s'') : OnlyPorts s s'' where
  table i := (h₂.table i).trans (h₁.table i)
  nextPid := h₂.nextPid.trans h₁.nextPid
  handed := h₂.handed.trans h₁.handed
  dead p hp := h₂.dead p (h₁.dead p hp)
  suspends := h₂.suspends.trans h₁.suspends

theorem kill (s : ProcSystem) (p : PortName) : OnlyPorts s (s.kill p) where
  table _ := rfl
  nextPid := rfl
  handed := rfl
  dead q hq := by
    simp only [ProcSystem.kill, Function.update_apply]
    split <;> simp_all
  suspends := rfl

theorem modify {g : PidEntry → PidEntry} (hg : ∀ e, (g e).portless = e.portless) :
    OnlyPorts s (s.modify i g) where
  table j := by
    by_cases hj : j = i
    · subst hj
      cases hs : s.pidTable j <;> simp [hs, hg]
    · simp [SlotTable.modify_other g hj]
  nextPid := rfl
  handed := rfl
  dead _ h := h
  suspends := rfl

theorem post {m : OutMsg} (hm : OutMsg.handedPid m = none) : OnlyPorts s (s.post m) where
  table _ := rfl
  nextPid := rfl
  handed := by simp [hm]
  dead _ h := h
  suspends := rfl

theorem entry (h : OnlyPorts s s') (hi : s'.pidTable i = some f) :
    ∃ e, s.pidTable i = some e ∧ f.portless = e.portless := by
  have ht := h.table i
  rw [hi] at ht
  cases hs : s.pidTable i with
  | none => simp [hs] at ht
  | some e =>
    simp only [hs, Option.map_some, Option.some.injEq] at ht
    exact ⟨e, rfl, ht⟩

end OnlyPorts

theorem onlyPorts_send (p : PortName) {m : OutMsg} (hm : OutMsg.handedPid m = none) :
    OnlyPorts s (send s p m).1 := by
  unfold send
  split
  · exact .post hm
  · exact .refl s

theorem onlyPorts_notifyCttyRelease (tty : PortName) (sid : Pid) :
    OnlyPorts s (notifyCttyRelease s tty sid) := by
  unfold notifyCttyRelease
  split
  · exact .refl s
  · exact onlyPorts_send tty rfl

theorem onlyPorts_notifyParent (sigport : PortName) (pid : Pid) :
    OnlyPorts s (notifyParent s sigport pid) := by
  unfold notifyParent
  split
  · exact onlyPorts_send sigport rfl
  · exact .refl s

theorem onlyPorts_clearSignalPort (sigport : PortName) :
    OnlyPorts s (clearSignalPort s pid sigport) := by
  unfold clearSignalPort
  split
  · split
    · exact .modify fun _ => rfl
    · exact .refl s
  · exact .refl s

/-! ## Signals -/

def PidEntry.identity (e : PidEntry) : PidEntry :=
  { e with stopped := false, signalPort := portNull }

structure OnlySignals (s s' : ProcSystem) : Prop where
  table : ∀ i, (s'.pidTable i).map PidEntry.identity = (s.pidTable i).map PidEntry.identity
  nextPid : s'.nextPid = s.nextPid
  handed : s'.handed = s.handed
  dead : ∀ p, s.dead p = true → s'.dead p = true

namespace OnlySignals

theorem refl (s : ProcSystem) : OnlySignals s s :=
  ⟨fun _ => rfl, rfl, rfl, fun _ h => h⟩

theorem trans (h₁ : OnlySignals s s') (h₂ : OnlySignals s' s'') : OnlySignals s s'' where
  table i := (h₂.table i).trans (h₁.table i)
  nextPid := h₂.nextPid.trans h₁.nextPid
  handed := h₂.handed.trans h₁.handed
  dead p hp := h₂.dead p (h₁.dead p hp)

theorem of_onlyPorts (h : OnlyPorts s s') : OnlySignals s s' where
  table i := by
    have hview : PidEntry.identity = PidEntry.identity ∘ PidEntry.portless := rfl
    rw [hview, ← Option.map_map, ← Option.map_map, h.table i]
  nextPid := h.nextPid
  handed := h.handed
  dead := h.dead

theorem setSuspends (s : ProcSystem) (task : PortName) (n : Nat) :
    OnlySignals s (s.setSuspends task n) :=
  ⟨fun _ => rfl, rfl, rfl, fun _ h => h⟩

theorem modify {g : PidEntry → PidEntry} (hg : ∀ e, (g e).identity = e.identity) :
    OnlySignals s (s.modify i g) where
  table j := by
    by_cases hj : j = i
    · subst hj
      cases hs : s.pidTable j <;> simp [hs, hg]
    · simp [SlotTable.modify_other g hj]
  nextPid := rfl
  handed := rfl
  dead _ h := h

theorem entry (h : OnlySignals s s') (hi : s'.pidTable i = some f) :
    ∃ e, s.pidTable i = some e ∧ f.identity = e.identity := by
  have ht := h.table i
  rw [hi] at ht
  cases hs : s.pidTable i with
  | none => simp [hs] at ht
  | some e =>
    simp only [hs, Option.map_some, Option.some.injEq] at ht
    exact ⟨e, rfl, ht⟩

theorem isNone (h : OnlySignals s s') : s'.pidTable i = none ↔ s.pidTable i = none := by
  have ht := h.table i
  rw [← Option.map_eq_none_iff (f := PidEntry.identity), ht, Option.map_eq_none_iff]

end OnlySignals

theorem onlySignals_taskTerminate (task : PortName) :
    OnlySignals s (taskTerminate s task).1 := by
  unfold taskTerminate
  split
  · exact .of_onlyPorts (.kill s task)
  · exact .refl s

theorem onlySignals_taskSuspend (task : PortName) : OnlySignals s (taskSuspend s task).1 := by
  unfold taskSuspend
  split
  · exact .setSuspends s task _
  · exact .refl s

theorem onlySignals_taskResume (task : PortName) : OnlySignals s (taskResume s task).1 := by
  unfold taskResume
  split
  · exact .setSuspends s task _
  · exact .refl s

theorem onlySignals_markStopped : OnlySignals s (markStopped s pid) := by
  unfold markStopped
  split
  · exact .modify fun _ => rfl
  · exact .refl s

theorem onlySignals_stopTask (task : PortName) : OnlySignals s (stopTask s pid task).1 := by
  unfold stopTask
  dsimp only
  split
  · exact (onlySignals_taskSuspend task).trans onlySignals_markStopped
  · exact onlySignals_taskSuspend task

theorem onlySignals_terminateTask (task : PortName) :
    OnlySignals s (terminateTask s task).1 :=
  onlySignals_taskTerminate task

theorem onlySignals_applyDefaultDisposition (signo : Int) (task : PortName) :
    OnlySignals s (applyDefaultDisposition s pid signo task).1 := by
  unfold applyDefaultDisposition
  split
  · exact .refl s
  · split
    · exact onlySignals_terminateTask task
    · exact onlySignals_stopTask task
    · exact .refl s

theorem onlySignals_deliver (sigport task : PortName) (signo : Int) :
    OnlySignals s (deliver s pid sigport task signo).1 := by
  unfold deliver
  split
  · exact onlySignals_applyDefaultDisposition signo task
  · dsimp only
    split
    · exact .of_onlyPorts (onlyPorts_send sigport rfl)
    · exact (OnlySignals.of_onlyPorts ((onlyPorts_send sigport rfl).trans
        (onlyPorts_clearSignalPort sigport))).trans
        (onlySignals_applyDefaultDisposition signo task)

theorem onlySignals_resumeAll (tasks : List PortName) : OnlySignals s (resumeAll s tasks) := by
  induction tasks generalizing s with
  | nil => exact .refl s
  | cons task tasks ih => exact (onlySignals_taskResume task).trans ih

theorem identity_clearStopped (grp : Pid) : (clearStopped grp e).identity = e.identity := by
  unfold clearStopped
  split <;> rfl

theorem onlySignals_continueGroup (grp : Pid) : OnlySignals s (continueGroup s grp) := by
  have hflags : OnlySignals s
      { s with pidTable := fun i => (s.pidTable i).map (clearStopped grp) } := by
    refine ⟨fun i => ?_, rfl, rfl, fun _ h => h⟩
    show ((s.pidTable i).map (clearStopped grp)).map PidEntry.identity = _
    rw [Option.map_map]
    exact congrArg (Option.map · (s.pidTable i)) (funext fun e => identity_clearStopped grp)
  exact hflags.trans (onlySignals_resumeAll _)

theorem onlySignals_kill (signo : Int) : OnlySignals s (kill s pid signo).1 := by
  unfold kill
  split
  · exact .refl s
  · split
    · exact .refl s
    · next i e _ =>
      split
      · exact .refl s
      · split
        · exact onlySignals_continueGroup e.pgrpId
        · dsimp only
          split
          · exact onlySignals_terminateTask e.taskPort
          · split
            · exact onlySignals_stopTask e.taskPort
            · exact onlySignals_deliver e.signalPort e.taskPort signo

theorem sendEach_invariant {α : Type} {act : ProcSystem → α → ProcSystem × Bool}
    {targets : List α} (R : ProcSystem → Prop) (hs : R s)
    (hact : ∀ s x, x ∈ targets → R s → R (act s x).1) : R (sendEach act targets s).1 := by
  unfold sendEach
  generalize 0 = sent
  induction targets generalizing s sent with
  | nil => exact hs
  | cons x targets ih =>
    exact ih (hact s x (by simp) hs) (fun s y hy => hact s y (by simp [hy])) _

theorem onlySignals_sendEach {α : Type} {act : ProcSystem → α → ProcSystem × Bool}
    (hact : ∀ s x, OnlySignals s (act s x).1) (targets : List α) :
    OnlySignals s (sendEach act targets s).1 :=
  sendEach_invariant (OnlySignals s) (.refl s) fun s₁ x _ h => h.trans (hact s₁ x)

theorem onlySignals_killpgUncatch (signo : Int) (task : PortName) :
    OnlySignals s (killpgUncatch signo s task).1 := by
  unfold killpgUncatch
  split
  · exact onlySignals_taskTerminate task
  · split
    · exact onlySignals_taskSuspend task
    · exact onlySignals_taskResume task

theorem onlySignals_killpg (pgrp : Pid) (signo : Int) : OnlySignals s (killpg s pgrp signo).1 := by
  unfold killpg
  split
  · exact .refl s
  · dsimp only
    split
    · exact onlySignals_sendEach (fun _ task => onlySignals_killpgUncatch signo task) _
    · exact onlySignals_sendEach
        (fun _ e => onlySignals_deliver e.signalPort e.taskPort signo) _

/-! ## What one message does -/

def Rewrites (s : ProcSystem) : ProcMsg → PidEntry → PidEntry → Prop
  | .execHandoff pid task, e, e' =>
    e.pid = pid ∧ e' = { e with taskPort := task, state := .running, signalPort := portNull }
  | .setExitCode pid code, e, e' => e.pid = pid ∧ e' = { e with exitCode := code }
  | .subscribeExit pid notify, e, e' =>
    e.pid = pid ∧ e.state = .running ∧ e' = { e with exitNotify := notify }
  | .setsid pid, e, e' =>
    e.pid = pid ∧ (∀ j f, s.pidTable j = some f → f.pgrpId ≠ pid) ∧
      e' = { e with sid := pid, pgrpId := pid, cttyPort := portNull, fgPgrpId := 0 }
  | .setpgid pid pgrp, e, e' =>
    e.pid = pid ∧
      ((∀ j f, s.pidTable j = some f → f.pgrpId ≠ targetPgrp pid pgrp) ∨
        ∃ j f, s.pidTable j = some f ∧ f.pgrpId = targetPgrp pid pgrp ∧ f.sid = e.sid) ∧
      e' = { e with pgrpId := targetPgrp pid pgrp }
  | .setCtty sid tty, e, e' =>
    e.sid = sid ∧ e.cttyPort = portNull ∧ e' = { e with cttyPort := tty, fgPgrpId := e.pgrpId }
  | .clearCtty sid, e, e' =>
    e.sid = sid ∧ e' = { e with cttyPort := portNull, fgPgrpId := 0 }
  | .tcsetpgrp sid pgrp, e, e' =>
    e.sid = sid ∧ e.cttyPort ≠ portNull ∧ e' = { e with fgPgrpId := pgrp }
  | .deadName name, e, e' =>
    e.taskPort = name ∧ s.dead name = true ∧ e.exitNotify = portNull ∧ e' = e.zombify
  | _, _, _ => False

def Releases (s : ProcSystem) (m : ProcMsg) (e : PidEntry) (delivered : Bool) : Prop :=
  match m with
  | .subscribeExit pid notify =>
    e.pid = pid ∧ e.state = .zombie ∧ delivered = s.alive notify
  | .reapZombie parent => e.ppid = parent ∧ e.state = .zombie ∧ delivered = true
  | .deadName name =>
    e.taskPort = name ∧ s.dead name = true ∧ e.exitNotify ≠ portNull ∧
      delivered = s.alive e.exitNotify
  | _ => False

inductive Effect (s : ProcSystem) (m : ProcMsg) (s' : ProcSystem) : Prop where
  | quiet (h : OnlyPorts s s')
  | killed {pid : Pid} {signo : Int} (hm : m = .kill pid signo) (hs : s' = (kill s pid signo).1)
  | killedGroup {pgrp : Pid} {signo : Int} (hm : m = .killpg pgrp signo)
      (hs : s' = (killpg s pgrp signo).1)
  | registered {parent : Pid} {task : PortName} {i : Fin maxTasks}
      (hm : m = .register parent task) (htask : findByTask s.pidTable task = none)
      (hi : s.pidTable i = none)
      (hs : s' = { s with
        pidTable := Function.update s.pidTable i (some (newEntry s i parent task))
        nextPid := s.nextPid + 1 })
  | rewritten {i : Fin maxTasks} {e : PidEntry} {g : PidEntry → PidEntry}
      (hi : s.pidTable i = some e) (hg : Rewrites s m e (g e))
      (hs : OnlyPorts (s.modify i g) s')
  | released {i : Fin maxTasks} {e : PidEntry} {delivered : Bool}
      (hi : s.pidTable i = some e) (hm : Releases s m e delivered)
      (table : s'.pidTable = Function.update s.pidTable i none)
      (nextPid : s'.nextPid = s.nextPid) (dead : s'.dead = s.dead)
      (suspends : s'.suspends = s.suspends)
      (handed : s'.handed = s.handed ++ if delivered then [e.pid] else [])

theorem Effect.of_eq {m : ProcMsg} (h : s = s') : Effect s m s' :=
  .quiet (h ▸ .refl s)

theorem register_effect {parent : Pid} {task : PortName} :
    Effect s (.register parent task) (register s parent task).1 := by
  unfold register
  split
  · exact .of_eq rfl
  · next htask =>
    split
    · exact .of_eq rfl
    · next i hfree => exact .registered rfl htask (SlotTable.freeSlot_some hfree) rfl

theorem execHandoff_effect {task : PortName} :
    Effect s (.execHandoff pid task) (execHandoff s pid task).1 := by
  unfold execHandoff
  split
  · exact .of_eq rfl
  · next i e hf =>
    exact .rewritten (findByPid_some hf).1 ⟨(findByPid_some hf).2, rfl⟩ (.refl _)

theorem setExitCode_effect {code : Int} :
    Effect s (.setExitCode pid code) (setExitCode s pid code).1 := by
  unfold setExitCode
  split
  · exact .of_eq rfl
  · next i e hf =>
    exact .rewritten (findByPid_some hf).1 ⟨(findByPid_some hf).2, rfl⟩ (.refl _)

theorem setSignalPort_effect {port : PortName} :
    Effect s (.setSignalPort pid port) (setSignalPort s pid port).1 := by
  unfold setSignalPort
  split
  · exact .of_eq rfl
  · exact .quiet (.modify fun _ => rfl)

theorem fireExitNotify_handed (notify : PortName) (pid : Pid) (code : Int) :
    (fireExitNotify s notify pid code).handed =
      s.handed ++ if s.alive notify then [pid] else [] := by
  unfold fireExitNotify send
  split
  · next h => simp [h, ProcSystem.alive]
  · split
    · simp [OutMsg.handedPid]
    · simp

theorem subscribeExit_effect {notify : PortName} :
    Effect s (.subscribeExit pid notify) (subscribeExit s pid notify).1 := by
  unfold subscribeExit
  split
  · exact .of_eq rfl
  · next i e hf =>
    obtain ⟨hi, hpid⟩ := findByPid_some hf
    split
    · next hz =>
      obtain ⟨htable, hnext, hdead, hsusp⟩ :=
        fireExitNotify_frame (s := s.clear i) notify pid e.exitCode
      refine .released hi ⟨hpid, hz, rfl⟩ htable hnext hdead hsusp ?_
      rw [fireExitNotify_handed, hpid]
      rfl
    · next hr => exact .rewritten hi ⟨hpid, hr, rfl⟩ (.refl _)

theorem reapZombie_effect {parent : Pid} :
    Effect s (.reapZombie parent) (reapZombie s parent).1 := by
  unfold reapZombie
  split
  · next i e hf =>
    obtain ⟨hi, hp⟩ := SlotTable.find_some hf
    simp only [Bool.and_eq_true, beq_iff_eq] at hp
    exact .released hi ⟨hp.1, hp.2, rfl⟩ rfl rfl rfl rfl (handed_post _)
  · split <;> exact .of_eq rfl

theorem doMachNotifyDeadName_effect {name : PortName} (hname : s.dead name = true) :
    Effect s (.deadName name) (doMachNotifyDeadName s name) := by
  unfold doMachNotifyDeadName
  split
  · exact .of_eq rfl
  · next i e hf =>
    obtain ⟨hi, htask⟩ := findByTask_some hf
    dsimp only
    generalize parentSigport _ _ = sigport
    by_cases hsub : e.exitNotify = portNull
    · -- no waiter: the zombie stays in its slot
      rw [if_neg (not_not.mpr hsub)]
      have hfire : ∀ s₁, fireExitNotify s₁ e.exitNotify e.pid e.exitCode = s₁ :=
        fun s₁ => if_pos hsub
      rw [hfire]
      exact .rewritten hi ⟨htask, hname, hsub, rfl⟩
        ((onlyPorts_notifyCttyRelease e.cttyPort e.pid).trans
          (onlyPorts_notifyParent sigport e.pid))
    · rw [if_pos hsub]
      obtain ⟨htable, hnext, hdead, hsusp⟩ :=
        notifyCttyRelease_frame (s := (s.modify i PidEntry.zombify).clear i) e.cttyPort e.pid
      have hrel := (onlyPorts_notifyCttyRelease
        (s := (s.modify i PidEntry.zombify).clear i) e.cttyPort e.pid).handed
      generalize notifyCttyRelease _ e.cttyPort e.pid = s₃ at *
      obtain ⟨htable', hnext', hdead', hsusp'⟩ :=
        fireExitNotify_frame (s := s₃) e.exitNotify e.pid e.exitCode
      have hfire := fireExitNotify_handed (s := s₃) e.exitNotify e.pid e.exitCode
      generalize fireExitNotify s₃ e.exitNotify e.pid e.exitCode = s₄ at *
      obtain ⟨htable'', hnext'', hdead'', hsusp''⟩ :=
        notifyParent_frame (s := s₄) sigport e.pid
      refine .released hi ⟨htask, hname, hsub, rfl⟩ ?_ ?_ ?_ ?_ ?_
      · rw [htable'', htable', htable]
        simp [SlotTable.modify]
      · rw [hnext'', hnext', hnext]
        rfl
      · rw [hdead'', hdead', hdead]
        rfl
      · rw [hsusp'', hsusp', hsusp]
        rfl
      · rw [(onlyPorts_notifyParent sigport e.pid).handed, hfire, hrel]
        simp only [handed_clear, handed_modify, ProcSystem.alive, hdead]
        rfl

theorem setsid_effect : Effect s (.setsid pid) (setsid s pid).1 := by
  unfold setsid
  split
  · exact .of_eq rfl
  · next i e hf =>
    obtain ⟨hi, hpid⟩ := findByPid_some hf
    split
    · exact .of_eq rfl
    · next hnone =>
      refine .rewritten hi ⟨hpid, fun j f hj heq => ?_, rfl⟩ (.refl _)
      have := SlotTable.find_eq_none.mp hnone j f hj
      simp [heq] at this

theorem setpgid_effect {pgrp : Pid} : Effect s (.setpgid pid pgrp) (setpgid s pid pgrp).1 := by
  unfold setpgid
  split
  · exact .of_eq rfl
  · next i e hf =>
    obtain ⟨hi, hpid⟩ := findByPid_some hf
    dsimp only
    split
    · next j member hmem =>
      obtain ⟨hj, hp⟩ := SlotTable.find_some hmem
      split
      · exact .of_eq rfl
      · next hsid =>
        exact .rewritten hi
          ⟨hpid, .inr ⟨j, member, hj, beq_iff_eq.mp hp, not_not.mp hsid⟩, rfl⟩ (.refl _)
    · next hnone =>
      refine .rewritten hi ⟨hpid, .inl fun j f hj heq => ?_, rfl⟩ (.refl _)
      have := SlotTable.find_eq_none.mp hnone j f hj
      simp [heq] at this

theorem setCtty_effect {sid : Pid} {tty : PortName} :
    Effect s (.setCtty sid tty) (setCtty s sid tty).1 := by
  unfold setCtty
  split
  · exact .of_eq rfl
  · next i e hf =>
    obtain ⟨hi, -, hsid⟩ := findSessionLeader_some hf
    split
    · exact .of_eq rfl
    · next hctty => exact .rewritten hi ⟨hsid, not_not.mp hctty, rfl⟩ (.refl _)

theorem clearCtty_effect {sid : Pid} : Effect s (.clearCtty sid) (clearCtty s sid).1 := by
  unfold clearCtty
  split
  · exact .of_eq rfl
  · next i e hf =>
    obtain ⟨hi, -, hsid⟩ := findSessionLeader_some hf
    exact .rewritten hi ⟨hsid, rfl⟩ (onlyPorts_notifyCttyRelease e.cttyPort sid)

theorem tcsetpgrp_effect {sid pgrp : Pid} :
    Effect s (.tcsetpgrp sid pgrp) (tcsetpgrp s sid pgrp).1 := by
  unfold tcsetpgrp
  split
  · exact .of_eq rfl
  · next i e hf =>
    obtain ⟨hi, -, hsid⟩ := findSessionLeader_some hf
    split
    · exact .of_eq rfl
    · next hctty => exact .rewritten hi ⟨hsid, hctty, rfl⟩ (.refl _)

theorem step_effect {m : ProcMsg} (h : step s m = some s') : Effect s m s' := by
  cases m <;> simp only [step] at h
  case deadName name =>
    split at h
    · next hdead =>
      cases h
      exact doMachNotifyDeadName_effect hdead
    · cases h
  all_goals cases h
  case register parent task => exact register_effect
  case execHandoff pid task => exact execHandoff_effect
  case setExitCode pid code => exact setExitCode_effect
  case subscribeExit pid notify => exact subscribeExit_effect
  case reapZombie parent => exact reapZombie_effect
  case setSignalPort pid port => exact setSignalPort_effect
  case kill pid signo => exact .killed rfl rfl
  case killpg pgrp signo => exact .killedGroup rfl rfl
  case setsid pid => exact setsid_effect
  case setpgid pid pgrp => exact setpgid_effect
  case setCtty sid tty => exact setCtty_effect
  case clearCtty sid => exact clearCtty_effect
  case tcsetpgrp sid pgrp => exact tcsetpgrp_effect
  case dies port => exact .quiet (.kill s port)

theorem newEntry_eq (i : Fin maxTasks) (parent : Pid) (task : PortName) :
    newEntry s i parent task =
      { freshEntry s parent task with
        pgrpId := (newEntry s i parent task).pgrpId
        sid := (newEntry s i parent task).sid } := by
  unfold newEntry
  split <;> rfl

theorem registered_cases {n : PidEntry}
    (hj : Function.update s.pidTable i (some n) j = some f) :
    (j = i ∧ f = n) ∨ (j ≠ i ∧ s.pidTable j = some f) := by
  rcases update_eq_some hj with ⟨rfl, ⟨⟩⟩ | hj
  · exact .inl ⟨rfl, rfl⟩
  · exact .inr hj

theorem released_cases (hj : Function.update s.pidTable i none j = some f) :
    j ≠ i ∧ s.pidTable j = some f :=
  (update_eq_some hj).resolve_left (by simp)

theorem Rewrites.keeps {m : ProcMsg} {e' : PidEntry} (h : Rewrites s m e e')
    (hz : e.state = .zombie → s.dead e.taskPort = true) :
    e'.pid = e.pid ∧ (e'.state = .zombie → s.dead e'.taskPort = true) := by
  cases m <;> simp only [Rewrites] at h
  case execHandoff => simp [h.2]
  case setExitCode => simpa [h.2] using hz
  case subscribeExit => simpa [h.2.2] using hz
  case setsid => simpa [h.2.2] using hz
  case setpgid => simpa [h.2.2] using hz
  case setCtty => simpa [h.2.2] using hz
  case clearCtty => simpa [h.2] using hz
  case tcsetpgrp => simpa [h.2.2] using hz
  case deadName =>
    obtain ⟨rfl, hdead, -, rfl⟩ := h
    simp [PidEntry.zombify, hdead]

theorem Releases.dead {m : ProcMsg} {delivered : Bool} (h : Releases s m e delivered)
    (hz : e.state = .zombie → s.dead e.taskPort = true) : s.dead e.taskPort = true := by
  cases m <;> simp only [Releases] at h
  case subscribeExit pid notify => exact hz h.2.1
  case reapZombie parent => exact hz h.2.1
  case deadName name =>
    obtain ⟨rfl, hdead, -⟩ := h
    exact hdead

/-! ## Pids -/

structure PidInv (s : ProcSystem) : Prop where
  below : ∀ i e, s.pidTable i = some e → e.pid.toNat < s.nextPid.toNat
  pids : s.pidTable.Distinct (·.pid)
  zombies : ∀ i e, s.pidTable i = some e → e.state = .zombie → s.dead e.taskPort = true

namespace PidInv

theorem init : PidInv .init where
  below _ _ h := by cases h
  pids _ _ _ _ h := by cases h
  zombies _ _ h := by cases h

theorem onlySignals (h : PidInv s) (hk : OnlySignals s s') : PidInv s' where
  below i f hf := by
    obtain ⟨e, he, hid⟩ := hk.entry hf
    have hpid : f.pid = e.pid := congrArg (·.pid) hid
    rw [hk.nextPid, hpid]
    exact h.below i e he
  pids i j f g hf hg hfg := by
    obtain ⟨e, he, hid⟩ := hk.entry hf
    obtain ⟨d, hd, hid'⟩ := hk.entry hg
    have hpe : f.pid = e.pid := congrArg (·.pid) hid
    have hpd : g.pid = d.pid := congrArg (·.pid) hid'
    exact h.pids i j e d he hd (hpe.symm.trans (hfg.trans hpd))
  zombies i f hf hz := by
    obtain ⟨e, he, hid⟩ := hk.entry hf
    have hstate : f.state = e.state := congrArg (·.state) hid
    have htask : f.taskPort = e.taskPort := congrArg (·.taskPort) hid
    rw [htask]
    exact hk.dead _ (h.zombies i e he (hstate ▸ hz))

theorem modify (h : PidInv s) (hi : s.pidTable i = some e) {g : PidEntry → PidEntry}
    (hpid : (g e).pid = e.pid)
    (hz : (g e).state = .zombie → s.dead (g e).taskPort = true) : PidInv (s.modify i g) where
  below j f hj := by
    rcases SlotTable.modify_cases hi hj with ⟨-, rfl⟩ | ⟨-, hj⟩
    · rw [hpid]
      exact h.below i e hi
    · exact h.below j f hj
  pids j k f d hj hk hfd := by
    rcases SlotTable.modify_cases hi hj with ⟨hji, hf⟩ | ⟨-, hj⟩ <;>
      rcases SlotTable.modify_cases hi hk with ⟨hki, hd⟩ | ⟨-, hk⟩
    · exact hji.trans hki.symm
    · subst hf
      exact hji.trans (h.pids i k e d hi hk (hpid.symm.trans hfd))
    · subst hd
      exact (h.pids j i f e hj hi (hfd.trans hpid)).trans hki.symm
    · exact h.pids j k f d hj hk hfd
  zombies j f hj hzf := by
    rcases SlotTable.modify_cases hi hj with ⟨-, rfl⟩ | ⟨-, hj⟩
    · exact hz hzf
    · exact h.zombies j f hj hzf

theorem register (h : PidInv s) {n : PidEntry}
    (hpid : n.pid = s.nextPid) (hrun : n.state = .running)
    (hroom : s.nextPid.toNat + 1 < 2 ^ 32) :
    PidInv { s with
      pidTable := Function.update s.pidTable i (some n), nextPid := s.nextPid + 1 } := by
  have hnext : (s.nextPid + 1).toNat = s.nextPid.toNat + 1 := by
    rw [UInt32.toNat_add, UInt32.toNat_one, Nat.mod_eq_of_lt hroom]
  refine ⟨fun j f hj => ?_, fun j k f d hj hk hfd => ?_, fun j f hj hz => ?_⟩
  · show f.pid.toNat < (s.nextPid + 1).toNat
    rcases registered_cases hj with ⟨-, rfl⟩ | ⟨-, hj⟩
    · rw [hnext, hpid]
      omega
    · have := h.below j f hj
      omega
  · -- a pid in use is below the new one
    have hne : ∀ k d, s.pidTable k = some d → d.pid ≠ n.pid := by
      intro k d hd heq
      have := h.below k d hd
      rw [heq, hpid] at this
      omega
    rcases registered_cases hj with ⟨hji, hf⟩ | ⟨-, hj'⟩ <;>
      rcases registered_cases hk with ⟨hki, hd⟩ | ⟨-, hk'⟩
    · exact hji.trans hki.symm
    · exact absurd (hfd.symm.trans (congrArg (·.pid) hf)) (hne k d hk')
    · exact absurd (hfd.trans (congrArg (·.pid) hd)) (hne j f hj')
    · exact h.pids j k f d hj' hk' hfd
  · rcases registered_cases hj with ⟨-, rfl⟩ | ⟨-, hj⟩
    · rw [hrun] at hz
      cases hz
    · exact h.zombies j f hj hz

theorem release (h : PidInv s) (htable : s'.pidTable = Function.update s.pidTable i none)
    (hnext : s'.nextPid = s.nextPid) (hdead : s'.dead = s.dead) : PidInv s' where
  below j f hj := by
    rw [htable] at hj
    rw [hnext]
    exact h.below j f (released_cases hj).2
  pids j k f d hj hk := by
    rw [htable] at hj hk
    exact h.pids j k f d (released_cases hj).2 (released_cases hk).2
  zombies j f hj := by
    rw [htable] at hj
    rw [hdead]
    exact h.zombies j f (released_cases hj).2

def Room (s : ProcSystem) : ProcMsg → Prop
  | .register _ _ => s.nextPid.toNat + 1 < 2 ^ 32
  | _ => True

theorem step {m : ProcMsg} (h : PidInv s) (hroom : Room s m) (hs : step s m = some s') :
    PidInv s' := by
  cases step_effect hs with
  | quiet hk => exact h.onlySignals (.of_onlyPorts hk)
  | killed hm hs' => exact h.onlySignals (hs' ▸ onlySignals_kill _)
  | killedGroup hm hs' => exact h.onlySignals (hs' ▸ onlySignals_killpg _ _)
  | registered hm htask hi hs' =>
    subst hm hs'
    refine h.register ?_ ?_ hroom <;> rw [newEntry_eq] <;> rfl
  | rewritten hi hg hs' =>
    obtain ⟨hpid, hz⟩ := hg.keeps (h.zombies _ _ hi)
    exact (h.modify hi hpid hz).onlySignals (.of_onlyPorts hs')
  | released hi hm htable hnext hdead => exact h.release htable hnext hdead

end PidInv

end Uros.Proc
