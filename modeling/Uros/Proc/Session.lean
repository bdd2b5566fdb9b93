import Uros.Proc.Effect

/-!
Process groups stay inside one session.

Group numbers are given out before there is a process of that number, so a group and a
later process, or the foreground group of a terminal and a later group, can meet by
number.  The condition below names the numbers that must not meet.
-/

namespace Uros.Proc

open Uros.Foundation

variable {s s' : ProcSystem} {m : ProcMsg} {i j : Fin maxTasks} {e f : PidEntry}

def Tracked (s : ProcSystem) (parent : Pid) : Prop :=
  parent ≠ pidNone ∧ (findByPid s.pidTable parent).isSome

instance (s : ProcSystem) (parent : Pid) : Decidable (Tracked s parent) :=
  inferInstanceAs (Decidable (_ ∧ _))

def GroupIn (s : ProcSystem) (pgrp sid : Pid) : Prop :=
  ∀ i, ∀ e ∈ s.pidTable i,
    (e.pgrpId = pgrp → e.sid = sid) ∧ (e.cttyPort ≠ portNull → e.fgPgrpId = pgrp → e.sid = sid)

instance (s : ProcSystem) (pgrp sid : Pid) : Decidable (GroupIn s pgrp sid) :=
  inferInstanceAs (Decidable (∀ i, ∀ e ∈ s.pidTable i, _))

/-- No message brings a group number into a second session: a session leader by
registration or `setsid` finds its number unused elsewhere, a process is moved to, and a
terminal is switched to, a group of the same session, and no process is its own parent. -/
def SameSession (s : ProcSystem) : ProcMsg → Prop
  | .register parent _ => parent ≠ s.nextPid ∧ (Tracked s parent ∨ GroupIn s s.nextPid s.nextPid)
  | .setsid pid =>
    ∀ i, ∀ e ∈ s.pidTable i, e.cttyPort ≠ portNull → e.fgPgrpId = pid → e.sid = pid
  | .setpgid pid pgrp =>
    ∀ i, ∀ e ∈ s.pidTable i, e.pid = pid →
      ∀ j, ∀ f ∈ s.pidTable j, f.cttyPort ≠ portNull →
        f.fgPgrpId = targetPgrp pid pgrp → f.sid = e.sid
  | .tcsetpgrp sid pgrp => ∀ i, ∀ e ∈ s.pidTable i, e.pgrpId = pgrp → e.sid = sid
  | _ => True

instance (s : ProcSystem) : (m : ProcMsg) → Decidable (SameSession s m)
  | .register _ _ => inferInstanceAs (Decidable (_ ∧ (_ ∨ _)))
  | .setsid _ => inferInstanceAs (Decidable (∀ i, ∀ e ∈ s.pidTable i, _))
  | .setpgid _ _ => inferInstanceAs (Decidable (∀ i, ∀ e ∈ s.pidTable i, _))
  | .tcsetpgrp _ _ => inferInstanceAs (Decidable (∀ i, ∀ e ∈ s.pidTable i, _))
  | .execHandoff _ _ | .setExitCode _ _ | .subscribeExit _ _ | .reapZombie _
  | .setSignalPort _ _ | .kill _ _ | .killpg _ _ | .setCtty _ _ | .clearCtty _ | .deadName _
  | .dies _ => .isTrue trivial

structure SessionInv (s : ProcSystem) : Prop where
  groups : ∀ i j e f, s.pidTable i = some e → s.pidTable j = some f →
    e.pgrpId = f.pgrpId → e.sid = f.sid
  foreground : ∀ i j e f, s.pidTable i = some e → e.cttyPort ≠ portNull →
    s.pidTable j = some f → f.pgrpId = e.fgPgrpId → f.sid = e.sid

structure Fits (s : ProcSystem) (i : Fin maxTasks) (n : PidEntry) : Prop where
  groups : ∀ j f, s.pidTable j = some f → j ≠ i → f.pgrpId = n.pgrpId → f.sid = n.sid
  member : ∀ j f, s.pidTable j = some f → j ≠ i → f.cttyPort ≠ portNull →
    n.pgrpId = f.fgPgrpId → n.sid = f.sid
  front : n.cttyPort ≠ portNull → ∀ j f, s.pidTable j = some f → j ≠ i →
    f.pgrpId = n.fgPgrpId → f.sid = n.sid

def PidEntry.place (e : PidEntry) : Pid × Pid × PortName × Pid :=
  (e.pgrpId, e.sid, e.cttyPort, e.fgPgrpId)

theorem Fits.congr {n : PidEntry} (h : Fits s i e) (heq : n.place = e.place) : Fits s i n := by
  simp only [PidEntry.place, Prod.mk.injEq] at heq
  obtain ⟨hgrp, hsid, hctty, hfg⟩ := heq
  constructor
  · rw [hgrp, hsid]
    exact h.groups
  · rw [hgrp, hsid]
    exact h.member
  · rw [hctty, hfg, hsid]
    exact h.front

theorem newEntry_group {parent : Pid} (hi : s.pidTable i = none) (task : PortName)
    (hself : parent ≠ s.nextPid) :
    (∃ k p, s.pidTable k = some p ∧ (newEntry s i parent task).pgrpId = p.pgrpId ∧
      (newEntry s i parent task).sid = p.sid) ∨
    (¬ Tracked s parent ∧ (newEntry s i parent task).pgrpId = s.nextPid ∧
      (newEntry s i parent task).sid = s.nextPid) := by
  unfold newEntry
  split
  · next p hp =>
    refine .inl ?_
    unfold registerParent at hp
    split at hp
    · obtain ⟨⟨k, q⟩, hq, rfl⟩ := Option.map_eq_some_iff.mp hp
      obtain ⟨hk, hpid⟩ := findByPid_some hq
      rcases registered_cases hk with ⟨-, rfl⟩ | ⟨-, hk⟩
      · exact absurd hpid.symm hself
      · exact ⟨k, q, hk, rfl, rfl⟩
    · cases hp
  · next hp =>
    refine .inr ⟨fun htracked => ?_, rfl, rfl⟩
    unfold registerParent at hp
    rw [if_pos htracked.1, Option.map_eq_none_iff] at hp
    obtain ⟨⟨k, q⟩, hq⟩ := Option.isSome_iff_exists.mp htracked.2
    obtain ⟨hk, hpid⟩ := findByPid_some hq
    have hne : k ≠ i := by
      rintro rfl
      rw [hi] at hk
      cases hk
    have hq' := SlotTable.find_eq_none.mp hp k q (by rw [Function.update_of_ne hne, hk])
    simp [hpid] at hq'

namespace SessionInv

theorem init : SessionInv .init where
  groups _ _ _ _ h := by cases h
  foreground _ _ _ _ h := by cases h

theorem onlySignals (h : SessionInv s) (hk : OnlySignals s s') : SessionInv s' where
  groups i j f g hf hg hfg := by
    obtain ⟨e, he, hid⟩ := hk.entry hf
    obtain ⟨d, hd, hid'⟩ := hk.entry hg
    have hsid : f.sid = e.sid := congrArg (·.sid) hid
    have hsid' : g.sid = d.sid := congrArg (·.sid) hid'
    have hgrp : f.pgrpId = e.pgrpId := congrArg (·.pgrpId) hid
    have hgrp' : g.pgrpId = d.pgrpId := congrArg (·.pgrpId) hid'
    rw [hsid, hsid']
    exact h.groups i j e d he hd (hgrp.symm.trans (hfg.trans hgrp'))
  foreground i j f g hf hctty hg hfg := by
    obtain ⟨e, he, hid⟩ := hk.entry hf
    obtain ⟨d, hd, hid'⟩ := hk.entry hg
    have hsid : f.sid = e.sid := congrArg (·.sid) hid
    have hsid' : g.sid = d.sid := congrArg (·.sid) hid'
    have hgrp : f.fgPgrpId = e.fgPgrpId := congrArg (·.fgPgrpId) hid
    have hgrp' : g.pgrpId = d.pgrpId := congrArg (·.pgrpId) hid'
    have hport : f.cttyPort = e.cttyPort := congrArg (·.cttyPort) hid
    rw [hsid, hsid']
    exact h.foreground i j e d he (hport ▸ hctty) hd (hgrp'.symm.trans (hfg.trans hgrp))

theorem fits (h : SessionInv s) (hi : s.pidTable i = some e) : Fits s i e where
  groups j f hj _ hfe := h.groups j i f e hj hi hfe
  member j f hj _ hctty hef := h.foreground j i f e hj hctty hi hef
  front hctty j f hj _ hfe := h.foreground i j e f hi hctty hj hfe

theorem place {n : PidEntry} (h : SessionInv s) (hn : Fits s i n)
    (hslots : ∀ j f, s'.pidTable j = some f → (j = i ∧ f = n) ∨ (j ≠ i ∧ s.pidTable j = some f)) :
    SessionInv s' where
  groups j k f d hj hk hfd := by
    rcases hslots j f hj with ⟨-, rfl⟩ | ⟨hji, hj'⟩ <;>
      rcases hslots k d hk with ⟨-, rfl⟩ | ⟨hki, hk'⟩
    · rfl
    · exact (hn.groups k d hk' hki hfd.symm).symm
    · exact hn.groups j f hj' hji hfd
    · exact h.groups j k f d hj' hk' hfd
  foreground j k f d hj hctty hk hfd := by
    rcases hslots j f hj with ⟨-, rfl⟩ | ⟨hji, hj'⟩ <;>
      rcases hslots k d hk with ⟨-, rfl⟩ | ⟨hki, hk'⟩
    · rfl
    · exact hn.front hctty k d hk' hki hfd
    · exact hn.member j f hj' hji hctty hfd
    · exact h.foreground j k f d hj' hctty hk' hfd

theorem release (h : SessionInv s) (htable : s'.pidTable = Function.update s.pidTable i none) :
    SessionInv s' where
  groups j k f d hj hk := by
    rw [htable] at hj hk
    exact h.groups j k f d (released_cases hj).2 (released_cases hk).2
  foreground j k f d hj hctty hk := by
    rw [htable] at hj hk
    exact h.foreground j k f d (released_cases hj).2 hctty (released_cases hk).2

theorem rewritten (h : SessionInv s) (hi : s.pidTable i = some e) (hm : SameSession s m)
    {e' : PidEntry} (hg : Rewrites s m e e') : Fits s i e' := by
  have hfits := h.fits hi
  cases m <;> simp only [Rewrites] at hg
  case execHandoff => exact hfits.congr (by rw [hg.2]; rfl)
  case setExitCode => exact hfits.congr (by rw [hg.2]; rfl)
  case subscribeExit => exact hfits.congr (by rw [hg.2.2]; rfl)
  case setsid pid =>
    obtain ⟨rfl, hnone, rfl⟩ := hg
    exact ⟨fun j f hj _ hfe => absurd hfe (hnone j f hj),
      fun j f hj _ hctty hef => (hm j f hj hctty hef.symm).symm, fun hctty => absurd rfl hctty⟩
  case setpgid pid pgrp =>
    obtain ⟨hpid, hsame, rfl⟩ := hg
    refine ⟨fun j f hj _ hfe => ?_, fun j f hj _ hctty hef => ?_, hfits.front⟩
    · -- the first member found decides for all of them
      rcases hsame with hnone | ⟨k, d, hk, hgrp, hsid⟩
      · exact absurd hfe (hnone j f hj)
      · exact (h.groups j k f d hj hk (hfe.trans hgrp.symm)).trans hsid
    · exact (hm i e hi hpid j f hj hctty hef.symm).symm
  case setCtty sid tty =>
    obtain ⟨-, -, rfl⟩ := hg
    exact ⟨hfits.groups, hfits.member, fun _ j f hj hji hfe => hfits.groups j f hj hji hfe⟩
  case clearCtty sid =>
    obtain ⟨-, rfl⟩ := hg
    exact ⟨hfits.groups, hfits.member, fun hctty => absurd rfl hctty⟩
  case tcsetpgrp sid pgrp =>
    obtain ⟨rfl, -, rfl⟩ := hg
    exact ⟨hfits.groups, hfits.member, fun _ j f hj _ hfe => hm j f hj hfe⟩
  case deadName name =>
    obtain ⟨-, -, -, rfl⟩ := hg
    exact ⟨hfits.groups, hfits.member, fun hctty => absurd rfl hctty⟩

theorem registered (h : SessionInv s) {parent : Pid} {task : PortName}
    (hi : s.pidTable i = none) (hm : SameSession s (.register parent task)) : Fits s i (newEntry s i parent task) := by
  obtain ⟨hself, hgroup⟩ := hm
  have hctty : (newEntry s i parent task).cttyPort = portNull := by
    rw [newEntry_eq]
    rfl
  rcases newEntry_group hi task hself with ⟨k, p, hk, hgrp, hsid⟩ | ⟨huntracked, hgrp, hsid⟩
  · have hfits := h.fits hk
    refine ⟨fun j f hj _ hfe => ?_, fun j f hj _ hf hef => ?_, fun hne => absurd hctty hne⟩
    · rw [hsid]
      exact h.groups j k f p hj hk (hfe.trans hgrp)
    · rw [hsid]
      exact h.foreground j k f p hj hf hk (hgrp.symm.trans hef)
  · have hin := hgroup.resolve_left huntracked
    refine ⟨fun j f hj _ hfe => ?_, fun j f hj _ hf hef => ?_, fun hne => absurd hctty hne⟩
    · rw [hsid]
      exact (hin j f hj).1 (hfe.trans hgrp)
    · rw [hsid]
      exact ((hin j f hj).2 hf (hef.symm.trans hgrp)).symm

theorem step (h : SessionInv s) (hm : SameSession s m) (hs : step s m = some s') :
    SessionInv s' := by
  cases step_effect hs with
  | quiet hk => exact h.onlySignals (.of_onlyPorts hk)
  | killed hmsg hs' => exact h.onlySignals (hs' ▸ onlySignals_kill _)
  | killedGroup hmsg hs' => exact h.onlySignals (hs' ▸ onlySignals_killpg _ _)
  | registered hmsg htask hi hs' =>
    subst hmsg hs'
    exact h.place (h.registered hi hm) fun j f hj => registered_cases hj
  | rewritten hi hg hs' =>
    exact (h.place (h.rewritten hi hm hg) fun j f hj =>
      SlotTable.modify_cases hi hj).onlySignals (.of_onlyPorts hs')
  | released hi hmsg htable => exact h.release htable

end SessionInv

/-- Where group numbers never meet across sessions, equal groups have equal sessions, and
the foreground group of a session with a controlling terminal is a group of no other. -/
theorem groups_stay_in_session {ms : List ProcMsg}
    (hmeet : StepsMeet step SameSession .init ms) (hrun : runSteps step .init ms = some s) :
    (∀ i j e f, s.pidTable i = some e → s.pidTable j = some f →
      e.pgrpId = f.pgrpId → e.sid = f.sid) ∧
    ∀ sid i e, findSessionLeader s.pidTable sid = some (i, e) → e.cttyPort ≠ portNull →
      ∀ j f, s.pidTable j = some f → f.pgrpId = e.fgPgrpId → f.sid = sid := by
  have hinv : SessionInv s :=
    runSteps_invariant_of_guard (fun _ _ _ h hm hs => h.step hm hs) .init hmeet hrun
  refine ⟨hinv.groups, fun sid i e hleader hctty j f hj hfe => ?_⟩
  obtain ⟨hi, -, hsid⟩ := findSessionLeader_some hleader
  rw [← hsid]
  exact hinv.foreground i j e f hi hctty hj hfe

/-- A shell with a terminal starts a job, gives it its own group and brings it to the
foreground. -/
def jobRun : List ProcMsg :=
  [.register 0 1, .setCtty 2 9, .register 2 2, .setpgid 3 3, .tcsetpgrp 2 3, .register 0 3]

theorem job_run_stays_in_session :
    ∃ s, runSteps step .init jobRun = some s ∧
      (findSessionLeader s.pidTable 2).map (fun (_, e) => (e.fgPgrpId, e.cttyPort)) =
        some (3, 9) ∧
      ∀ i j e f, s.pidTable i = some e → s.pidTable j = some f →
        e.pgrpId = f.pgrpId → e.sid = f.sid := by
  have hrun : ((runSteps step .init jobRun).map fun s =>
      (findSessionLeader s.pidTable 2).map fun (_, e) => (e.fgPgrpId, e.cttyPort)) =
      some (some (3, 9)) := by decide +kernel
  obtain ⟨s, hs, hleader⟩ := Option.map_eq_some_iff.mp hrun
  exact ⟨s, hs, hleader, (groups_stay_in_session (by decide +kernel) hs).1⟩

/-- A process moves to a group that has its number from nowhere, and the next process to
register gets that number. -/
def strayGroupRun : List ProcMsg :=
  [.register 0 1, .setpgid 2 3, .register 0 2]

theorem stray_group_spans_sessions :
    ((runSteps step .init strayGroupRun).map fun s =>
        s.pidTable.entries.map fun e => (e.pid, e.pgrpId, e.sid)) =
      some [(2, 3, 2), (3, 3, 3)] := by
  decide +kernel

end Uros.Proc
