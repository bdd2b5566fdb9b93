import Uros.Proc.Effect

/-!
Exit codes are handed out once.

The log of pids whose exit code left the server never repeats a pid, and a slot is given
up by the very message that hands out its code.
-/

namespace Uros.Proc

open Uros.Foundation

variable {s s' : ProcSystem} {m : ProcMsg} {i : Fin maxTasks} {e : PidEntry}

/-- A new pid does not run past the last one, and whoever waits for an exit code can still
be sent a message when the code is due. -/
def WaiterAlive (s : ProcSystem) : ProcMsg → Prop
  | .register _ _ => s.nextPid.toNat + 1 < 2 ^ 32
  | .subscribeExit pid notify =>
    ∀ i e, s.pidTable i = some e → e.pid = pid → e.state = .zombie → s.alive notify = true
  | .deadName name =>
    ∀ i e, s.pidTable i = some e → e.taskPort = name → e.exitNotify ≠ portNull →
      s.alive e.exitNotify = true
  | _ => True

instance (s : ProcSystem) : (m : ProcMsg) → Decidable (WaiterAlive s m)
  | .register _ _ => inferInstanceAs (Decidable (_ < _))
  | .subscribeExit _ _ => inferInstanceAs (Decidable (∀ i, ∀ e ∈ s.pidTable i, _))
  | .deadName _ => inferInstanceAs (Decidable (∀ i, ∀ e ∈ s.pidTable i, _))
  | .execHandoff _ _ | .setExitCode _ _ | .reapZombie _ | .setSignalPort _ _ | .kill _ _
  | .killpg _ _ | .setsid _ | .setpgid _ _ | .setCtty _ _ | .clearCtty _ | .tcsetpgrp _ _
  | .dies _ => .isTrue trivial

theorem WaiterAlive.room (h : WaiterAlive s m) : PidInv.Room s m := by
  cases m <;> first | exact h | trivial

theorem Releases.delivered {delivered : Bool} (h : Releases s m e delivered)
    (hi : s.pidTable i = some e) (hw : WaiterAlive s m) : delivered = true := by
  cases m <;> simp only [Releases] at h
  case subscribeExit pid notify =>
    obtain ⟨hpid, hz, rfl⟩ := h
    exact hw i e hi hpid hz
  case reapZombie parent => exact h.2.2
  case deadName name =>
    obtain ⟨htask, -, hsub, rfl⟩ := h
    exact hw i e hi htask hsub

structure ExitInv (s : ProcSystem) : Prop extends PidInv s where
  handedBelow : ∀ p ∈ s.handed, p.toNat < s.nextPid.toNat
  gone : ∀ i e, s.pidTable i = some e → e.pid ∉ s.handed
  once : s.handed.Nodup

structure HandsOut (s s' : ProcSystem) (i : Fin maxTasks) (e : PidEntry) : Prop where
  before : e.pid ∉ s.handed
  freed : s'.pidTable i = none ↔ e.pid ∈ s'.handed
  dead : e.pid ∈ s'.handed → s.dead e.taskPort = true

theorem HandsOut.of_kept (hbefore : e.pid ∉ s.handed) (hkept : s'.pidTable i ≠ none)
    (hhanded : s'.handed = s.handed) : HandsOut s s' i e where
  before := hbefore
  freed := by
    rw [hhanded]
    exact iff_of_false hkept hbefore
  dead hmem := absurd (hhanded ▸ hmem) hbefore

theorem HandsOut.of_onlySignals (hbefore : e.pid ∉ s.handed) (hi : s.pidTable i = some e)
    (hk : OnlySignals s s') : HandsOut s s' i e := by
  refine .of_kept hbefore (fun hnone => ?_) hk.handed
  rw [hk.isNone, hi] at hnone
  cases hnone

theorem ExitInv.handsOut (h : ExitInv s) (hw : WaiterAlive s m) (hs : step s m = some s')
    (hi : s.pidTable i = some e) : HandsOut s s' i e := by
  have hbefore := h.gone i e hi
  cases step_effect hs with
  | quiet hk => exact .of_onlySignals hbefore hi (.of_onlyPorts hk)
  | killed hm hs' => exact .of_onlySignals hbefore hi (hs' ▸ onlySignals_kill _)
  | killedGroup hm hs' => exact .of_onlySignals hbefore hi (hs' ▸ onlySignals_killpg _ _)
  | @registered parent task k hm htask hk hs' =>
    subst hs'
    have hne : i ≠ k := by
      rintro rfl
      rw [hi] at hk
      cases hk
    refine .of_kept hbefore ?_ rfl
    show Function.update s.pidTable k _ i ≠ none
    rw [Function.update_of_ne hne, hi]
    exact Option.some_ne_none e
  | @rewritten k d g hk hg hs' =>
    refine .of_kept hbefore (fun hnone => ?_) hs'.handed
    rw [(OnlySignals.of_onlyPorts hs').isNone, modify_pidTable] at hnone
    by_cases hne : i = k
    · subst hne
      simp [hi] at hnone
    · rw [SlotTable.modify_other g hne, hi] at hnone
      cases hnone
  | @released k d delivered hk hm htable hnext hdead hsusp hhanded =>
    rw [hm.delivered hk hw, if_pos rfl] at hhanded
    refine ⟨hbefore, ?_, fun hmem => ?_⟩
    · rw [htable, hhanded, List.mem_append, List.mem_singleton, Function.update_apply]
      by_cases hne : i = k
      · subst hne
        cases hi.symm.trans hk
        simp
      · rw [if_neg hne, hi]
        refine iff_of_false (by simp) ?_
        rintro (hold | hnew)
        · exact hbefore hold
        · exact hne (h.pids i k e d hi hk hnew)
    · rw [hhanded, List.mem_append, List.mem_singleton] at hmem
      have hpid := hmem.resolve_left hbefore
      have hik := h.pids i k e d hi hk hpid
      subst hik
      cases hi.symm.trans hk
      exact hm.dead (h.zombies i e hi)

namespace ExitInv

theorem init : ExitInv .init where
  toPidInv := .init
  handedBelow _ h := by cases h
  gone _ _ h := by cases h
  once := .nil

theorem of_handed (h : ExitInv s) (hpids : PidInv s') (hhanded : s'.handed = s.handed)
    (hnext : s.nextPid.toNat ≤ s'.nextPid.toNat)
    (hgone : ∀ i e, s'.pidTable i = some e → e.pid ∉ s.handed) : ExitInv s' where
  toPidInv := hpids
  handedBelow p hp := lt_of_lt_of_le (h.handedBelow p (hhanded ▸ hp)) hnext
  gone i e hi := hhanded ▸ hgone i e hi
  once := hhanded ▸ h.once

theorem onlySignals (h : ExitInv s) (hk : OnlySignals s s') : ExitInv s' := by
  refine h.of_handed (h.toPidInv.onlySignals hk) hk.handed
    (congrArg UInt32.toNat hk.nextPid).ge (fun i f hf => ?_)
  obtain ⟨e, he, hid⟩ := hk.entry hf
  have hpid : f.pid = e.pid := congrArg (·.pid) hid
  rw [hpid]
  exact h.gone i e he

theorem step (h : ExitInv s) (hw : WaiterAlive s m) (hs : step s m = some s') : ExitInv s' := by
  have hpids : PidInv s' := h.toPidInv.step hw.room hs
  cases step_effect hs with
  | quiet hk => exact h.onlySignals (.of_onlyPorts hk)
  | killed hm hs' => exact h.onlySignals (hs' ▸ onlySignals_kill _)
  | killedGroup hm hs' => exact h.onlySignals (hs' ▸ onlySignals_killpg _ _)
  | @registered parent task k hm htask hk hs' =>
    subst hm hs'
    have hroom : s.nextPid.toNat + 1 < 2 ^ 32 := hw
    have hnext : (s.nextPid + 1).toNat = s.nextPid.toNat + 1 := by
      rw [UInt32.toNat_add, UInt32.toNat_one, Nat.mod_eq_of_lt hroom]
    refine h.of_handed hpids rfl (by rw [hnext]; omega) (fun j f hj => ?_)
    rcases registered_cases hj with ⟨-, rfl⟩ | ⟨-, hj⟩
    · intro hmem
      have := h.handedBelow _ hmem
      rw [newEntry_eq] at this
      exact lt_irrefl _ this
    · exact h.gone j f hj
  | @rewritten k d g hk hg hs' =>
    refine h.of_handed hpids hs'.handed (congrArg UInt32.toNat hs'.nextPid).ge (fun j f hj => ?_)
    obtain ⟨f', hf', hid⟩ := hs'.entry hj
    have hpid : f.pid = f'.pid := congrArg (·.pid) hid
    rw [hpid]
    rcases SlotTable.modify_cases hk hf' with ⟨-, rfl⟩ | ⟨-, hj⟩
    · rw [(hg.keeps (h.zombies k d hk)).1]
      exact h.gone k d hk
    · exact h.gone j f' hj
  | @released k d delivered hk hm htable hnext hdead hsusp hhanded =>
    rw [hm.delivered hk hw, if_pos rfl] at hhanded
    refine ⟨hpids, fun p hp => ?_, fun j f hj hmem => ?_, ?_⟩
    · rw [hnext]
      rw [hhanded, List.mem_append, List.mem_singleton] at hp
      rcases hp with hold | rfl
      · exact h.handedBelow p hold
      · exact h.below k d hk
    · rw [htable] at hj
      obtain ⟨hne, hj⟩ := released_cases hj
      rw [hhanded, List.mem_append, List.mem_singleton] at hmem
      rcases hmem with hold | hnew
      · exact h.gone j f hj hold
      · exact hne (h.pids j k f d hj hk hnew)
    · rw [hhanded, List.nodup_append]
      refine ⟨h.once, List.nodup_singleton _, ?_⟩
      rintro p hp q hq rfl
      rw [List.mem_singleton] at hq
      exact h.gone k d hk (hq ▸ hp)

end ExitInv

/-- As long as pids do not run out and waiters are alive when a code is due, no exit code is
handed out twice, none before the task is dead, and a slot is given up by exactly the
message that hands out its code. -/
theorem exit_code_handed_out_once {ms : List ProcMsg}
    (hmeet : StepsMeet step WaiterAlive .init ms) (hrun : runSteps step .init ms = some s) :
    s.handed.Nodup ∧
      ∀ m s', WaiterAlive s m → step s m = some s' →
        ∀ i e, s.pidTable i = some e → HandsOut s s' i e := by
  have hinv : ExitInv s :=
    runSteps_invariant_of_guard (fun _ _ _ h hw hs => h.step hw hs) .init hmeet hrun
  exact ⟨hinv.once, fun m s' hw hs i e hi => hinv.handsOut hw hs hi⟩

def waitedRun : List ProcMsg :=
  [.register 0 1, .register 2 2, .subscribeExit 2 5, .dies 2, .setExitCode 2 7, .deadName 2,
    .reapZombie 2, .dies 1]

theorem waited_run_hands_out_once :
    ∃ s s', runSteps step .init waitedRun = some s ∧ s.handed = [3] ∧ s.handed.Nodup ∧
      step s (.deadName 1) = some s' ∧ s'.handed = [3, 2] ∧
      ∀ i e, s.pidTable i = some e → HandsOut s s' i e := by
  have hmeet : StepsMeet step WaiterAlive .init (waitedRun ++ [.deadName 1]) := by
    decide +kernel
  rw [StepsMeet.append] at hmeet
  have hfirst : ((runSteps step .init waitedRun).map (·.handed)) = some [3] := by decide +kernel
  obtain ⟨s, hs, hhanded⟩ := Option.map_eq_some_iff.mp hfirst
  have hlast : ((runSteps step .init (waitedRun ++ [.deadName 1])).map (·.handed)) =
      some [3, 2] := by decide +kernel
  obtain ⟨s', hs', hhanded'⟩ := Option.map_eq_some_iff.mp hlast
  obtain ⟨t, ht, hstep⟩ := runSteps_append.mp hs'
  cases hs.symm.trans ht
  obtain ⟨t', hstep, hnil⟩ := runSteps_cons.mp hstep
  cases hnil
  obtain ⟨hnodup, hout⟩ := exit_code_handed_out_once hmeet.1 hs
  exact ⟨s, s', hs, hhanded, hnodup, hstep, hhanded',
    hout _ _ (hmeet.2 s hs).1 hstep⟩

/-- A waiter that died before the process it waits for: the slot is given up and the code
goes nowhere. -/
def deadWaiterRun : List ProcMsg :=
  [.register 0 1, .subscribeExit 2 5, .setExitCode 2 7, .dies 5, .dies 1]

theorem dead_waiter_loses_exit_code :
    ((runSteps step .init deadWaiterRun).map fun s =>
        (findByPid s.pidTable 2).map fun (_, e) => (e.exitCode, s.dead e.taskPort)) =
      some (some (7, true)) ∧
    ((runSteps step .init (deadWaiterRun ++ [.deadName 1])).map fun s =>
        ((findByPid s.pidTable 2).isSome, s.handed)) = some (false, []) := by
  decide +kernel

end Uros.Proc
