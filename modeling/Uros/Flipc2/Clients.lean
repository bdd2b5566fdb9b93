import Uros.Flipc2.Endpoint

/-!
What the clients of an endpoint can do to each other.

Whoever has a send right to the contact port can put any message there: a connect, a disconnect
with any task port it holds, or a message with the id of a dead-name notification and a name of
its choice in the body.
-/

namespace Uros.Flipc2.Endpoint

open Uros.Foundation

variable {cfg : EpConfig} {ep ep' : Endpoint cfg} {i : Fin cfg.maxClients} {conn : EpConn} {b : ℕ}

structure Open (ep : Endpoint cfg) (i : Fin cfg.maxClients) (conn : EpConn) (b : ℕ) : Prop where
  slot : ep.conns i = some conn
  entry : ∃ e, ep.space.entry conn.clientTask = some e ∧ e.port = b
  alive : ep.space.alive b = true

def EpStep.actor : EpStep → Option ℕ
  | .message sender _ _ => some sender
  | .notification _ => none
  | .dies port => some port

/-- No message pretends to be a notification, and a disconnect carries the task port of its
sender. -/
def Civil (_ : Endpoint cfg) : EpStep → Prop
  | .message _ (.deadName _) _ => False
  | .message sender (.disconnect task) _ => task = none ∨ task = some sender
  | _ => True

instance decidableCivil (ep : Endpoint cfg) : DecidablePred (Civil ep)
  | .message _ (.deadName _) _ => .isFalse id
  | .message _ (.disconnect _) _ => inferInstanceAs (Decidable (_ ∨ _))
  | .message _ (.connect _ _ _ _) _ | .message _ .other _ | .notification _ | .dies _ =>
    .isTrue trivial

theorem not_forged_of_civil {e : EpStep} (hcivil : Civil ep e) : e.forged = false := by
  cases e with
  | message sender content fresh =>
    cases content with
    | deadName notPort => exact hcivil.elim
    | _ => rfl
  | _ => rfl

theorem Open.keeps (ho : Open ep i conn b) (hslot : ep'.conns i = some conn)
    (hkeeps : ep.space.Keeps ep'.space) (halive : ep'.space.alive b = true) :
    Open ep' i conn b := by
  obtain ⟨e, he, hport⟩ := ho.entry
  obtain ⟨e', he', hport', -⟩ := hkeeps _ e he
  exact ⟨hslot, ⟨e', he', hport'.trans hport⟩, halive⟩

theorem alive_receive {sp sp' : TaskSpace} {right task : Option ℕ} {fresh : ℕ} (hok : sp.Ok)
    (h : sp.receive right fresh = some (sp', task)) : sp'.alive = sp.alive := by
  obtain ⟨-, rfl⟩ | ⟨name, e, -, -, -, -, rfl⟩ | ⟨port, -, -, -, -, -, rfl⟩ :=
    TaskSpace.receive_cases hok h <;> rfl

theorem alive_deallocate (sp : TaskSpace) (name : ℕ) : (sp.deallocate name).alive = sp.alive := by
  unfold TaskSpace.deallocate
  split
  · rfl
  · split <;> rfl

theorem alive_afterFailure (sp : TaskSpace) (task : Option ℕ) :
    (afterFailure cfg sp task).alive = sp.alive := by
  unfold afterFailure
  split
  · rfl
  · cases task with
    | none => rfl
    | some name => exact alive_deallocate sp name

theorem alive_requestNotification {sp sp' : TaskSpace} {name : ℕ}
    (h : sp.requestNotification name = some sp') : sp'.alive = sp.alive := by
  simp only [TaskSpace.requestNotification] at h
  split at h
  · cases h
  · simp only [Option.ite_none_left_eq_some, Option.some.injEq] at h
    exact h.2 ▸ rfl

theorem Open.connect {right : Option ℕ} {channelSize ringEntries : UInt32}
    {ans : ConnectAnswers} {fresh : ℕ} (ho : Open ep i conn b) (hi : Inv ep)
    (h : ep.process (.connect right channelSize ringEntries ans) fresh = some ep') :
    Open ep' i conn b := by
  obtain ⟨sp, task, hrec, ⟨made, chs, -, rfl⟩ | ⟨slot, name, space, rfl, hfree, hreq, rfl⟩⟩ :=
    process_connect h
  · refine ho.keeps ho.slot (ok_afterFailure hi.space hrec).2 ?_
    simpa only [alive_afterFailure, alive_receive hi.space hrec] using ho.alive
  · have hne : i ≠ slot := by
      rintro rfl
      simp [ho.slot] at hfree
    have hok := hi.space.receive hrec
    refine ho.keeps ?_ (hok.2.trans (hok.1.requestNotification hreq).2) ?_
    · simpa [hne] using ho.slot
    · simpa only [alive_requestNotification hreq, alive_receive hi.space hrec] using ho.alive

theorem received_port {sp sp' : TaskSpace} {right : Option ℕ} {fresh name : ℕ} {e : TaskEntry}
    (hok : sp.Ok) (h : sp.receive right fresh = some (sp', some name))
    (he : sp.entry name = some e) : right = some e.port := by
  obtain ⟨hno, -⟩ | ⟨n, d, hn, hd, -, hright, -⟩ | ⟨port, hn, -, hfresh, -, -, -⟩ :=
    TaskSpace.receive_cases hok h
  · cases hno
  · cases hn
    rw [he] at hd
    cases hd
    exact hright
  · cases hn
    simp [he] at hfresh

theorem Open.disconnect {right : Option ℕ} {fresh : ℕ} (ho : Open ep i conn b) (hi : Inv ep)
    (hright : right ≠ some b) (h : ep.process (.disconnect right) fresh = some ep') :
    Open ep' i conn b := by
  obtain ⟨sp, task, hrec, ⟨name, j, c, rfl, hfind, rfl⟩ | ⟨-, rfl⟩⟩ := process_disconnect h
  · obtain ⟨hc, hname⟩ := SlotTable.find_some hfind
    simp only [decide_eq_true_eq] at hname
    have hne : i ≠ j := by
      rintro rfl
      obtain ⟨e, he, hport⟩ := ho.entry
      rw [ho.slot] at hc
      cases hc
      rw [hname] at he
      exact hright (hport ▸ received_port hi.space hrec he)
    obtain ⟨hok, hkeeps⟩ := hi.space.receive hrec
    obtain ⟨hnote, e, he, -, htwo⟩ := hi.space.received hrec
    obtain ⟨d, hd⟩ := hi.slot j c hc
    have hdealloc := hok.deallocate he (htwo (by simp [← hname, hd])) hnote
    refine ho.keeps ?_ (hkeeps.trans hdealloc.2) ?_
    · simpa [closeSlot, destroy, hne] using ho.slot
    · simpa [closeSlot, destroy, alive_deallocate, alive_receive hi.space hrec] using ho.alive
  · refine ho.keeps ho.slot (ok_afterFailure hi.space hrec).2 ?_
    simpa only [alive_afterFailure, alive_receive hi.space hrec] using ho.alive

theorem cleanupDead_other {name : ℕ} (hslot : ep.conns i = some conn)
    (hne : conn.clientTask ≠ name) : (ep.cleanupDead name).conns i = some conn := by
  unfold cleanupDead
  split
  · next j c hfind =>
    obtain ⟨hc, hname⟩ := SlotTable.find_some hfind
    have hij : i ≠ j := by
      rintro rfl
      rw [hslot] at hc
      cases hc
      exact hne (by simpa using hname)
    cases cfg.reactor <;> simpa [closeSlot, destroy, hij] using hslot
  · exact hslot

theorem Open.notification {name : ℕ} (ho : Open ep i conn b) (hi : Inv ep)
    (h : ep.step (.notification name) = some ep') : Open ep' i conn b := by
  obtain ⟨e, he, hmem, rfl⟩ := step_notification h
  obtain ⟨d, hd, hdead, htwo⟩ := hi.space.due name hmem
  rw [he] at hd
  cases hd
  have hne : conn.clientTask ≠ name := by
    rintro rfl
    obtain ⟨d, hd, hport⟩ := ho.entry
    rw [he] at hd
    cases hd
    have hgone := hi.space.gone _ e he hdead
    rw [hport, ho.alive] at hgone
    cases hgone
  have hnote : name ∉ (ep.dequeue name).space.notes := hi.space.nodup.not_mem_erase
  have hkeeps := ((hi.dequeue name).space.deallocate he htwo hnote).2
  refine ho.keeps (cleanupDead_other ho.slot hne) ?_ ?_
  · change ep.space.Keeps ((ep.dequeue name).cleanupDead name).space
    rw [cleanupDead_space]
    exact hkeeps
  · change ((ep.dequeue name).cleanupDead name).space.alive b = true
    rw [cleanupDead_space, alive_deallocate]
    exact ho.alive

theorem Open.step {e : EpStep} (ho : Open ep i conn b) (hi : Inv ep) (hcivil : Civil ep e)
    (hactor : e.actor ≠ some b) (h : ep.step e = some ep') : Open ep' i conn b := by
  cases e with
  | notification name => exact ho.notification hi h
  | dies port =>
    simp only [Endpoint.step, Option.ite_none_right_eq_some, Option.some.injEq] at h
    obtain ⟨-, rfl⟩ := h
    refine ho.keeps ho.slot (hi.space.dies port).2 ?_
    have hne : b ≠ port := by
      rintro rfl
      exact hactor rfl
    change (ep.space.dies port).alive b = true
    obtain ⟨-, heq⟩ | ⟨name, e, -, -, -, -, heq⟩ := TaskSpace.dies_cases hi.space port <;>
      simpa [heq, hne] using ho.alive
  | message sender content fresh =>
    cases content with
    | connect task channelSize ringEntries ans => exact ho.connect hi h
    | disconnect task =>
      refine ho.disconnect hi ?_ h
      rintro rfl
      obtain hnone | hsome := hcivil
      · cases hnone
      · exact hactor hsome.symm
    | deadName notPort => exact hcivil.elim
    | other =>
      obtain rfl := Option.some.inj h
      exact ho

/-- What the library has reported as new and not as dead, it has not destroyed. -/
def Kept (ep : Endpoint cfg) : Prop :=
  ∀ f r, .new f r ∈ ep.events → .dead f r ∉ ep.events → f ∉ ep.destroyed ∧ r ∉ ep.destroyed

def Unmatched (ep : Endpoint cfg) : EpStep → Prop
  | .message _ (.disconnect (some task)) fresh =>
    ∀ j, ∀ c ∈ ep.conns j, c.clientTask ≠ (ep.space.nameOf task).getD fresh
  | _ => True

instance decidableUnmatched (ep : Endpoint cfg) : DecidablePred (Unmatched ep)
  | .message _ (.disconnect (some _)) _ => inferInstanceAs (Decidable (∀ j, ∀ c ∈ ep.conns j, _))
  | .message _ (.disconnect none) _ | .message _ (.deadName _) _ | .message _ (.connect _ _ _ _) _
  | .message _ .other _ | .notification _ | .dies _ => .isTrue trivial

structure ChannelsOk (ep : Endpoint cfg) : Prop where
  reported : ∀ f r, .new f r ∈ ep.events → f < ep.nextCh ∧ r < ep.nextCh
  made : ∀ ch ∈ ep.destroyed, ch < ep.nextCh
  kept : ∀ f r, .new f r ∈ ep.events → f ∉ ep.destroyed ∧ r ∉ ep.destroyed

theorem ChannelsOk.congr (hc : ChannelsOk ep) (hevents : ∀ f r, .new f r ∈ ep'.events →
      .new f r ∈ ep.events) (hdestroyed : ep'.destroyed = ep.destroyed)
    (hnext : ep'.nextCh = ep.nextCh) : ChannelsOk ep' := by
  refine ⟨fun f r h => ?_, ?_, fun f r h => ?_⟩
  · rw [hnext]
    exact hc.reported f r (hevents f r h)
  · rw [hnext, hdestroyed]
    exact hc.made
  · rw [hdestroyed]
    exact hc.kept f r (hevents f r h)

theorem ChannelsOk.cleanupDead (hc : ChannelsOk ep) (hmode : cfg.reactor = true) (name : ℕ) :
    ChannelsOk (ep.cleanupDead name) := by
  unfold Endpoint.cleanupDead
  split
  · next i conn hfind =>
    rw [hmode, if_pos rfl]
    refine hc.congr (fun f r h => ?_) rfl rfl
    obtain h | h := List.mem_append.mp h
    · exact h
    · simp at h
  · exact hc.congr (fun _ _ h => h) rfl rfl

theorem receive_name {sp sp' : TaskSpace} {right : Option ℕ} {fresh name : ℕ}
    (h : sp.receive right fresh = some (sp', some name)) :
    ∃ port, right = some port ∧ name = (sp.nameOf port).getD fresh := by
  cases right with
  | none => simp [TaskSpace.receive] at h
  | some port =>
    refine ⟨port, rfl, ?_⟩
    simp only [TaskSpace.receive] at h
    split at h
    · simp at h
    · split at h
      · next n hn =>
        simp only [Option.some.injEq, Prod.mk.injEq] at h
        simp [hn, ← h.2]
      · next hn =>
        simp only [Option.ite_none_right_eq_some, Option.some.injEq, Prod.mk.injEq] at h
        simp [hn, ← h.2.2]

theorem ChannelsOk.connect {right : Option ℕ} {channelSize ringEntries : UInt32}
    {ans : ConnectAnswers} {fresh : ℕ} (hc : ChannelsOk ep)
    (h : ep.process (.connect right channelSize ringEntries ans) fresh = some ep') :
    ChannelsOk ep' := by
  obtain ⟨sp, task, -, ⟨made, chs, hchs, rfl⟩ | ⟨slot, name, space, -, -, -, rfl⟩⟩ :=
    process_connect h
  · -- the channels of a failed connect have not been reported
    have hnew : ∀ ch, ch < ep.nextCh → ch ∉ ep.destroyed → ch ∉ ep.destroyed ++ chs := by
      intro ch hlt hnot hmem
      obtain hmem | hmem := List.mem_append.mp hmem
      · exact hnot hmem
      · exact absurd (hchs ch hmem).1 (by omega)
    refine ⟨fun f r hfr => ?_, fun ch hch => ?_, fun f r hfr => ?_⟩
    · obtain ⟨hf, hr⟩ := hc.reported f r hfr
      exact ⟨by simp only; omega, by simp only; omega⟩
    · obtain hch | hch := List.mem_append.mp hch
      · have := hc.made ch hch
        simp only
        omega
      · exact (hchs ch hch).2
    · obtain ⟨hf, hr⟩ := hc.reported f r hfr
      obtain ⟨hkf, hkr⟩ := hc.kept f r hfr
      exact ⟨hnew f hf hkf, hnew r hr hkr⟩
  · have hnew : ∀ ch, ep.nextCh ≤ ch → ch ∉ ep.destroyed := by
      intro ch hle hmem
      exact absurd (hc.made ch hmem) (by omega)
    refine ⟨fun f r hfr => ?_, fun ch hch => ?_, fun f r hfr => ?_⟩
    · obtain hfr | hfr := List.mem_append.mp hfr
      · obtain ⟨hf, hr⟩ := hc.reported f r hfr
        exact ⟨by simp only; omega, by simp only; omega⟩
      · cases List.mem_singleton.mp hfr
        exact ⟨by simp only; omega, by simp only; omega⟩
    · have := hc.made ch hch
      simp only
      omega
    · obtain hfr | hfr := List.mem_append.mp hfr
      · exact hc.kept f r hfr
      · cases List.mem_singleton.mp hfr
        exact ⟨hnew _ le_rfl, hnew _ (Nat.le_succ _)⟩

theorem ChannelsOk.step {e : EpStep} (hc : ChannelsOk ep) (hmode : cfg.reactor = true)
    (hunmatched : Unmatched ep e) (h : ep.step e = some ep') : ChannelsOk ep' := by
  cases e with
  | notification name =>
    obtain ⟨d, -, -, rfl⟩ := step_notification h
    have hdequeue : ChannelsOk (ep.dequeue name) := hc.congr (fun _ _ h => h) rfl rfl
    exact (hdequeue.cleanupDead hmode name).congr (fun _ _ h => h) rfl rfl
  | dies port =>
    simp only [Endpoint.step, Option.ite_none_right_eq_some, Option.some.injEq] at h
    obtain ⟨-, rfl⟩ := h
    exact hc.congr (fun _ _ h => h) rfl rfl
  | message sender content fresh =>
    cases content with
    | other =>
      obtain rfl := Option.some.inj h
      exact hc
    | deadName notPort =>
      obtain rfl := Option.some.inj h
      exact hc.cleanupDead hmode notPort
    | connect right channelSize ringEntries ans => exact hc.connect h
    | disconnect right =>
      obtain ⟨sp, task, hrec, ⟨name, i, conn, rfl, hfind, -⟩ | ⟨-, rfl⟩⟩ :=
        process_disconnect h
      · obtain ⟨hconn, hname⟩ := SlotTable.find_some hfind
        obtain ⟨port, rfl, heq⟩ := receive_name hrec
        exact absurd (by simpa [heq] using hname) (hunmatched i conn hconn)
      · exact hc.congr (fun _ _ h => h) rfl rfl

theorem channelsOk_start (alive : ℕ → Bool) : ChannelsOk (start cfg alive) :=
  ⟨by simp [start], by simp [start], by simp [start]⟩

/-- As long as no message pretends to be a notification and disconnects carry the task port of
their sender, nobody but a client itself ends its connection.  As long as no disconnect finds a
connection, a reactor has every channel that it was given until it is reported dead. -/
theorem clients_isolated {alive : ℕ → Bool} {before after : List EpStep}
    (hrun : runSteps step (start cfg alive) before = some ep)
    (hafter : runSteps step ep after = some ep') :
    (StepsMeet step Civil (start cfg alive) (before ++ after) →
      ∀ i conn b, Open ep i conn b → (∀ e ∈ after, e.actor ≠ some b) → Open ep' i conn b) ∧
    (cfg.reactor = true → StepsMeet step Unmatched (start cfg alive) before → Kept ep) := by
  constructor
  · intro hmeet i conn b ho hactor
    obtain ⟨hbefore, hmeet'⟩ := StepsMeet.append.mp hmeet
    have hi : Inv ep := runSteps_invariant_of_guard
      (fun _ _ _ hi hg hs => hi.step (not_forged_of_civil hg) hs) (inv_start alive) hbefore hrun
    have hstep : ∀ (ep : Endpoint cfg) e ep', Inv ep ∧ Open ep i conn b →
        e.actor ≠ some b ∧ Civil ep e → ep.step e = some ep' → Inv ep' ∧ Open ep' i conn b :=
      fun _ _ _ hi hg hs => ⟨hi.1.step (not_forged_of_civil hg.2) hs, hi.2.step hi.1 hg.2 hg.1 hs⟩
    exact (runSteps_invariant_of_guard hstep ⟨hi, ho⟩
      ((stepsMeet_of_forall hactor).and (hmeet' ep hrun)) hafter).2
  · intro hmode hmeet f r hnew _
    have hc : ChannelsOk ep := runSteps_invariant_of_guard
      (fun _ _ _ hc hg hs => hc.step hmode hg hs) (channelsOk_start alive) hmeet hrun
    exact hc.kept f r hnew

def twoClients : List EpStep :=
  [.message 1 (.connect (some 1) 0 0 granted) 10, .message 2 (.connect (some 2) 0 0 granted) 11]

def secondLeaves : List EpStep :=
  [.message 2 (.connect (some 2) 0 0 granted) 12, .dies 2, .notification 11]

theorem clients_isolated_second_leaves :
    ∃ ep ep', runSteps step (start (smallEndpoint true) fun _ => true) twoClients = some ep ∧
      runSteps step ep secondLeaves = some ep' ∧ ep'.events = [.new 0 1, .new 2 3, .dead 2 3] ∧
      (∃ i, Open ep' i ⟨0, 1, 10⟩ 1) ∧ Kept ep := by
  have hend : ((runSteps step (start (smallEndpoint true) fun _ => true) twoClients).bind fun ep =>
      (runSteps step ep secondLeaves).map fun ep' =>
        (ep'.events, ep.conns.entries, ep.space.entry 10, ep.space.alive 1)) =
      some ([.new 0 1, .new 2 3, .dead 2 3], [⟨0, 1, 10⟩, ⟨2, 3, 11⟩], some ⟨1, 1, true, false⟩,
        true) := by decide +kernel
  obtain ⟨ep, hrun, hrest⟩ := Option.bind_eq_some_iff.mp hend
  obtain ⟨ep', hafter, heq⟩ := Option.map_eq_some_iff.mp hrest
  simp only [Prod.mk.injEq] at heq
  obtain ⟨i, hconn⟩ : ∃ i, ep.conns i = some ⟨0, 1, 10⟩ :=
    SlotTable.mem_entries.mp (by simp [heq.2.1])
  have hthm := clients_isolated hrun hafter
  refine ⟨ep, ep', hrun, hafter, heq.1, ⟨i, ?_⟩, hthm.2 rfl (by decide +kernel)⟩
  refine hthm.1 (by decide +kernel) i _ 1 ⟨hconn, ⟨_, heq.2.2.1, rfl⟩, heq.2.2.2⟩ ?_
  simp [secondLeaves, EpStep.actor]

/-- Client 2 sends a notification of its own about client 1, whose connection is gone; and the
channels of a client that disconnects from a reactor are destroyed and never reported dead. -/
theorem forged_notification_disconnects :
    ((runSteps step (start (smallEndpoint true) fun _ => true)
        (twoClients ++ [.message 2 (.deadName 10) 12])).map fun ep =>
        (ep.conns.entries, ep.space.alive 1)) = some ([⟨2, 3, 11⟩], true) ∧
    ∃ ep, runSteps step (start (smallEndpoint true) fun _ => true)
        [.message 1 (.connect (some 1) 0 0 granted) 10, .message 1 (.disconnect (some 1)) 11] =
          some ep ∧ ¬ Kept ep := by
  constructor
  · decide +kernel
  · have hend : ((runSteps step (start (smallEndpoint true) fun _ => true)
        [.message 1 (.connect (some 1) 0 0 granted) 10,
          .message 1 (.disconnect (some 1)) 11]).map fun ep => (ep.events, ep.destroyed)) =
        some ([.new 0 1], [0, 1]) := by decide +kernel
    obtain ⟨ep, hrun, heq⟩ := Option.map_eq_some_iff.mp hend
    simp only [Prod.mk.injEq] at heq
    refine ⟨ep, hrun, fun hkept => ?_⟩
    exact (hkept 0 1 (by simp [heq.1]) (by simp [heq.1])).1 (by simp [heq.2])

end Uros.Flipc2.Endpoint
