import Mathlib.Logic.Relation
import Uros.Device.IrqForward

/-!
The forwarding thread over whole runs: interrupts, registrations and calls of
`device_intr_enable` come at any of its steps.
-/

namespace Uros.Device

open Uros.Foundation

inductive Event where
  | interrupt (i : Line)
  | thread
  | register (master : Bool) (irq : ℕ) (notify : Option Port)
  | unregister (master : Bool) (irq : ℕ)
  | enable (master : Bool) (irq : ℕ)

def scanLine (s : State) (i : Line) (any : Bool) : State :=
  if s.pending i = 0 ∨ s.active i = false then { s with pc := .scan (i + 1) any }
  else
    { s with
      pending := Function.update s.pending i 0
      pc := if (s.port i).isSome then .sends i else .scan (i + 1) any }

def threadStep (s : State) : Option State :=
  match s.pc with
  | .scan i any =>
    some (if h : i < 16 then scanLine s ⟨i, h⟩ any
      else { s with pc := if any then .scan 0 false else .asserts })
  | .sends i => some { s with owed := Function.update s.owed i false, pc := .scan (i + 1) true }
  | .asserts => some { s with waiting := true, pc := .rechecks 0 }
  | .rechecks i =>
    some (if h : i < 16 then
        if s.pending ⟨i, h⟩ = 0 then { s with pc := .rechecks (i + 1) }
        else { s with waiting := false, pc := .scan 0 false }
      else { s with pc := .blocked })
  | .blocked => if s.waiting then none else some { s with pc := .scan 0 false }

def step (s : State) : Event → Option State
  | .interrupt i => some (interrupt s i)
  | .thread => threadStep s
  | .register master irq notify => (intrRegister s master irq notify).map Prod.snd
  | .unregister master irq => (intrUnregister s master irq).map Prod.snd
  | .enable master irq => some (intrEnable s master irq).2

/-- No line is registered while another one is masked by the handler, and no line has `2 ^ 32`
interrupts between two looks of the thread. -/
def Calm (s : State) : Event → Prop
  | .interrupt i => s.pending i + 1 < 2 ^ 32
  | .register .. => ∀ i, s.held i = false
  | _ => True

/-- Every interrupt gets its notification before the thread blocks, a line that the handler
has masked is masked at every level, and the thread by itself comes to its block. -/
structure Delivers (s : State) : Prop where
  notified : s.pc = .blocked → s.waiting = true → ∀ i, s.owed i = false
  masked : ∀ i, s.held i = true → ∀ level, s.picMask level i = true
  blocks : ∃ s', Relation.ReflTransGen (fun a b => threadStep a = some b) s s' ∧
    s'.pc = .blocked ∧ s'.waiting = true

structure Inv (s : State) : Prop where
  owed : ∀ i, s.owed i = true → s.pending i ≠ 0 ∨ s.pc = .sends i
  rechecks : ∀ j, s.pc = .rechecks j → s.waiting = true → ∀ i : Line, i.val < j → s.pending i = 0
  blocked : s.pc = .blocked → s.waiting = true → ∀ i, s.pending i = 0
  bound : ∀ i, (∃ any, s.pc = .scan i any) ∨ s.pc = .rechecks i → i ≤ 16
  idle : ∀ i, s.active i = false → s.pending i = 0
  ports : ∀ i, s.active i = true → (s.port i).isSome = true
  taken : ∀ i, s.active i = true → (s.setting i).pri ≠ 0
  forced : ∀ i, s.held i = true → s.forced i = true
  masked : ∀ i, s.held i = true → ∀ level, s.picMask level i = true

variable {s s' : State} {i : Line}

theorem Inv.boot (setting : Line → Setting) : Inv (boot setting) := by
  constructor <;> simp [Device.boot]

theorem bound_of_scan {k : ℕ} {any : Bool} (hk : k ≤ 16) :
    ∀ j, (∃ any', Pc.scan k any = .scan j any') ∨ Pc.scan k any = .rechecks j → j ≤ 16 := by
  rintro j (⟨any', heq⟩ | heq)
  · cases heq
    exact hk
  · cases heq

theorem bound_of_rechecks {k : ℕ} (hk : k < 16) :
    ∀ j, (∃ any, Pc.rechecks (k + 1) = .scan j any) ∨ Pc.rechecks (k + 1) = .rechecks j →
      j ≤ 16 := by
  rintro j (⟨any, heq⟩ | heq)
  · cases heq
  · cases heq
    exact hk

theorem Inv.goes {w : Bool} {pc : Pc} (h : Inv s) (hsends : ∀ i, s.pc ≠ .sends i)
    (hrechecks : ∀ j, pc = .rechecks j → w = true → ∀ i : Line, i.val < j → s.pending i = 0)
    (hblocked : pc = .blocked → w = true → ∀ i, s.pending i = 0)
    (hbound : ∀ i, (∃ any, pc = .scan i any) ∨ pc = .rechecks i → i ≤ 16) :
    Inv { s with waiting := w, pc := pc } where
  owed i hi := .inl ((h.owed i hi).resolve_right (hsends i))
  rechecks := hrechecks
  blocked := hblocked
  bound := hbound
  idle := h.idle
  ports := h.ports
  taken := h.taken
  forced := h.forced
  masked := h.masked

theorem Inv.scanLine {any : Bool} (h : Inv s) (hsends : ∀ j, s.pc ≠ .sends j) :
    Inv (scanLine s i any) := by
  unfold Device.scanLine
  split
  · exact h.goes hsends (by simp) (by simp) (bound_of_scan i.isLt)
  · next hwork =>
    have hactive : s.active i = true := by
      by_contra hno
      exact hwork (.inr (by simpa using hno))
    have hport := h.ports i hactive
    refine ⟨?_, by simp [hport], by simp [hport], by simp [hport], ?_, h.ports, h.taken, h.forced,
      h.masked⟩ <;> dsimp only
    · intro j hj
      by_cases hji : j = i
      · simp [hji, hport]
      · have := (h.owed j hj).resolve_right (hsends j)
        exact .inl (by simpa [hji] using this)
    · intro j hj
      by_cases hji : j = i
      · simp [hji]
      · simpa [hji] using h.idle j hj

theorem Inv.sent (h : Inv s) (hpc : s.pc = .sends i) {any : Bool} :
    Inv { s with owed := Function.update s.owed i false, pc := .scan (i + 1) any } := by
  refine ⟨?_, by simp, by simp, bound_of_scan i.isLt, h.idle, h.ports, h.taken, h.forced,
    h.masked⟩
  intro j hj
  by_cases hji : j = i
  · simp [hji] at hj
  · rcases h.owed j (by simpa [hji] using hj) with hpend | hsends
    · exact .inl hpend
    · cases hpc.symm.trans hsends
      exact absurd rfl hji

theorem Inv.thread (h : Inv s) (hs : threadStep s = some s') : Inv s' := by
  unfold threadStep at hs
  split at hs
  · next i any hpc =>
    cases hs
    split
    · exact h.scanLine (by simp [hpc])
    · cases any with
      | false => exact h.goes (by simp [hpc]) (by simp) (by simp) (by simp)
      | true => exact h.goes (by simp [hpc]) (by simp) (by simp) (by simp)
  · next i hpc =>
    cases hs
    exact h.sent hpc
  · next hpc =>
    cases hs
    exact h.goes (by simp [hpc]) (by simp) (by simp) (by simp)
  · next i hpc =>
    cases hs
    have hseen := h.rechecks i hpc
    split
    · next hi =>
      split
      · next hzero =>
        refine h.goes (by simp [hpc]) ?_ (by simp) (bound_of_rechecks hi)
        rintro _ ⟨⟩ hw j hj
        rcases Nat.lt_succ_iff_lt_or_eq.mp hj with hlt | heq
        · exact hseen hw j hlt
        · exact (Fin.ext heq : j = ⟨i, hi⟩) ▸ hzero
      · exact h.goes (by simp [hpc]) (by simp) (by simp) (by simp)
    · exact h.goes (by simp [hpc]) (by simp) (fun _ hw j => hseen hw j (by omega)) (by simp)
  · next hpc =>
    split at hs
    · cases hs
    · cases hs
      exact h.goes (by simp [hpc]) (by simp) (by simp) (by simp)

theorem Inv.interrupt (h : Inv s) (hlt : s.pending i + 1 < 2 ^ 32) : Inv (interrupt s i) := by
  have hmod : (s.pending i + 1) % 2 ^ 32 ≠ 0 := by
    rw [Nat.mod_eq_of_lt hlt]
    exact Nat.succ_ne_zero _
  unfold Device.interrupt irqForwardHandler picIrqMask
  split
  · split
    · next hregistered =>
      refine ⟨?_, by simp, by simp, h.bound, ?_, h.ports, h.taken, ?_, ?_⟩ <;> dsimp only
      · intro j hj
        by_cases hji : j = i
        · exact .inl (by simpa [hji] using hmod)
        · simpa [hji] using h.owed j (by simpa [hji] using hj)
      · intro j hj
        have hji : j ≠ i := by
          rintro rfl
          simp [hj] at hregistered
        simpa [hji] using h.idle j hj
      · intro j hj
        by_cases hji : j = i
        · simp [hji]
        · simpa [hji] using h.forced j (by simpa [hji] using hj)
      · intro j hj level
        by_cases hji : j = i
        · simp [hji]
        · simp [h.masked j (by simpa [hji] using hj) level]
    · exact h
  · exact h

theorem Inv.enable (h : Inv s) (master : Bool) (irq : ℕ) : Inv (intrEnable s master irq).2 := by
  unfold intrEnable
  split
  · exact h
  · split
    · next hirq =>
      -- a line that stays masked is another one
      have hother : ∀ j, Function.update s.held ⟨irq, hirq⟩ false j = true →
          j ≠ ⟨irq, hirq⟩ ∧ s.held j = true := by
        intro j hj
        by_cases hji : j = ⟨irq, hirq⟩
        · simp [hji] at hj
        · exact ⟨hji, by simpa [hji] using hj⟩
      refine ⟨h.owed, h.rechecks, h.blocked, h.bound, h.idle, h.ports, h.taken, ?_, ?_⟩ <;>
        dsimp only [picIrqUnmask]
      · intro j hj
        obtain ⟨hji, hheld⟩ := hother j hj
        simpa [hji] using h.forced j hheld
      · intro j hj level
        obtain ⟨hji, hheld⟩ := hother j hj
        simp [hji, h.forced j hheld]
    · exact h

theorem intrRegister_cases {master : Bool} {irq : ℕ} {notify : Option Port} {kr : KernReturn}
    (hs : intrRegister s master irq notify = some (kr, s')) :
    s' = s ∨ ∃ i p, s'.active = Function.update s.active i true ∧
      s'.port = Function.update s.port i (some p) ∧ (s'.setting i).pri = spl6 ∧
      (∀ j, j ≠ i → s'.setting j = s.setting j) ∧ s'.pending = s.pending ∧ s'.owed = s.owed ∧
      s'.pc = s.pc ∧ s'.waiting = s.waiting ∧ s'.held = s.held := by
  unfold intrRegister at hs
  split at hs
  · cases hs
    exact .inl rfl
  split at hs
  · next hirq =>
    split at hs
    · cases hs
      exact .inl rfl
    · next p =>
      split at hs
      · cases hs
        exact .inl rfl
      · right
        dsimp only [takeIrq] at hs
        split at hs
        · cases hs
          refine ⟨⟨irq, hirq⟩, p, ?_⟩
          unfold resetIrq
          split <;> simp +contextual [formPicMask]
        · cases hs
  · cases hs
    exact .inl rfl

theorem Inv.register {master : Bool} {irq : ℕ} {notify : Option Port} {kr : KernReturn} (h : Inv s)
    (hcalm : ∀ i, s.held i = false) (hs : intrRegister s master irq notify = some (kr, s')) :
    Inv s' := by
  rcases intrRegister_cases hs with rfl | ⟨i, p, ha, hp, hpri, hset, hpend, ho, hpc, hw, hh⟩
  · exact h
  · constructor
    · simpa only [ho, hpend, hpc] using h.owed
    · simpa only [hpc, hw, hpend] using h.rechecks
    · simpa only [hpc, hw, hpend] using h.blocked
    · simpa only [hpc] using h.bound
    · rw [ha, hpend]
      grind [h.idle, Function.update_apply]
    · rw [ha, hp]
      grind [h.ports, Function.update_apply]
    · rw [ha]
      grind [h.taken, Function.update_apply, spl6]
    · simp [hh, hcalm]
    · simp [hh, hcalm]

theorem Inv.unregister {master : Bool} {irq : ℕ} {kr : KernReturn} (h : Inv s)
    (hs : intrUnregister s master irq = some (kr, s')) : s' = s := by
  unfold intrUnregister at hs
  split at hs
  · cases hs
    rfl
  split at hs
  · next hirq =>
    dsimp only at hs
    split at hs
    · next hactive => simp [takeIrq, h.taken _ hactive] at hs
    · cases hs
      rfl
  · cases hs
    rfl

theorem Inv.step {e : Event} (h : Inv s) (hcalm : Calm s e) (hs : Device.step s e = some s') :
    Inv s' := by
  cases e with
  | interrupt i =>
    cases hs
    exact h.interrupt hcalm
  | thread => exact h.thread hs
  | register master irq notify =>
    obtain ⟨⟨kr, s₁⟩, h₁, rfl⟩ := Option.map_eq_some_iff.mp hs
    exact h.register hcalm h₁
  | unregister master irq =>
    obtain ⟨⟨kr, s₁⟩, h₁, rfl⟩ := Option.map_eq_some_iff.mp hs
    exact h.unregister h₁ ▸ h
  | enable master irq =>
    cases hs
    exact h.enable master irq

abbrev Threads : State → State → Prop := Relation.ReflTransGen fun a b => threadStep a = some b

theorem scan_finishes (k : ℕ) {s : State} {i : ℕ} {any : Bool} (h : Inv s)
    (hpc : s.pc = .scan i any) (hk : i + k = 16) :
    ∃ s' any', Threads s s' ∧ Inv s' ∧ s'.pc = .scan 16 any' ∧
      (∀ j : Line, i ≤ j.val ∨ s.pending j = 0 → s'.pending j = 0) ∧
      ((∀ j, s.pending j = 0) → any' = any) := by
  induction k generalizing s i any with
  | zero =>
    obtain rfl : i = 16 := by omega
    exact ⟨s, any, .refl, h, hpc, fun j hj => hj.resolve_left (by omega), fun _ => rfl⟩
  | succ k ih =>
    have hi : i < 16 := by omega
    have hfirst : threadStep s = some (scanLine s ⟨i, hi⟩ any) := by simp [threadStep, hpc, hi]
    have h₁ := h.thread hfirst
    unfold scanLine at hfirst h₁
    split at hfirst
    · next hskip =>
      rw [if_pos hskip] at h₁
      have hzero : s.pending ⟨i, hi⟩ = 0 := hskip.elim id (h.idle _)
      obtain ⟨s', any', ht, hinv, hend, hpend, hany⟩ := ih h₁ rfl (by simp; omega)
      refine ⟨s', any', .head hfirst ht, hinv, hend, ?_, hany⟩
      intro j hj
      by_cases hji : j = ⟨i, hi⟩
      · exact hpend j (.inr (hji ▸ hzero))
      · refine hpend j (hj.imp_left fun hle => ?_)
        have : j.val ≠ i := fun heq => hji (Fin.ext heq)
        simp
        omega
    · next hwork =>
      rw [if_neg hwork] at h₁
      have hport : (s.port ⟨i, hi⟩).isSome = true := h.ports _ (by grind)
      rw [if_pos hport] at hfirst h₁
      have hsecond : threadStep { s with
          pending := Function.update s.pending ⟨i, hi⟩ 0, pc := .sends ⟨i, hi⟩ } = some _ := rfl
      have h₂ := h₁.thread hsecond
      obtain ⟨s', any', ht, hinv, hend, hpend, hany⟩ := ih h₂ rfl (by simp; omega)
      refine ⟨s', any', .head hfirst (.head hsecond ht), hinv, hend, ?_, fun hall => ?_⟩
      · intro j hj
        by_cases hji : j = ⟨i, hi⟩
        · exact hpend j (.inr (by simp [hji]))
        · refine hpend j (hj.imp (fun hle => ?_) (fun h0 => by simp [hji, h0]))
          have : j.val ≠ i := fun heq => hji (Fin.ext heq)
          simp
          omega
      · exact absurd (.inl (hall _)) hwork

theorem recheck_finishes (k : ℕ) {s : State} {i : ℕ} (h : Inv s) (hpc : s.pc = .rechecks i)
    (hk : i + k = 16) :
    ∃ s', Threads s s' ∧ Inv s' ∧ (s'.pc = .blocked ∧ s'.waiting = s.waiting ∨
      s'.pc = .scan 0 false ∧ ¬∀ j, s.pending j = 0) := by
  induction k generalizing s i with
  | zero =>
    obtain rfl : i = 16 := by omega
    have hs : threadStep s = some { s with pc := .blocked } := by simp [threadStep, hpc]
    exact ⟨_, .single hs, h.thread hs, .inl ⟨rfl, rfl⟩⟩
  | succ k ih =>
    have hi : i < 16 := by omega
    by_cases h0 : s.pending ⟨i, hi⟩ = 0
    · have hs : threadStep s = some { s with pc := .rechecks (i + 1) } := by
        simp [threadStep, hpc, hi, h0]
      obtain ⟨s', ht, hrest⟩ := ih (h.thread hs) rfl (by omega)
      exact ⟨s', .head hs ht, hrest⟩
    · have hs : threadStep s = some { s with waiting := false, pc := .scan 0 false } := by
        simp [threadStep, hpc, hi, h0]
      exact ⟨_, .single hs, h.thread hs, .inr ⟨rfl, fun hall => h0 (hall _)⟩⟩

def Blocks (s : State) : Prop := ∃ s', Threads s s' ∧ s'.pc = .blocked ∧ s'.waiting = true

theorem Blocks.of_threads (ht : Threads s s') (h : Blocks s') : Blocks s := by
  obtain ⟨s'', ht', hend⟩ := h
  exact ⟨s'', ht.trans ht', hend⟩

theorem blocks_of_empty (h : Inv s) (hpc : s.pc = .scan 16 false) (hall : ∀ j, s.pending j = 0) :
    Blocks s := by
  have hs₁ : threadStep s = some { s with pc := .asserts } := by simp [threadStep, hpc]
  have hs₂ : threadStep { s with pc := .asserts } =
    some { s with waiting := true, pc := .rechecks 0 } :=
    rfl
  obtain ⟨s', ht, -, ⟨hpc', hw⟩ | ⟨-, hno⟩⟩ :=
    recheck_finishes 16 ((h.thread hs₁).thread hs₂) rfl rfl
  · exact ⟨s', .head hs₁ (.head hs₂ ht), hpc', hw⟩
  · exact absurd hall hno

theorem blocks_of_end {any : Bool} (h : Inv s) (hpc : s.pc = .scan 16 any)
    (hall : ∀ j, s.pending j = 0) : Blocks s := by
  cases any with
  | false => exact blocks_of_empty h hpc hall
  | true =>
    have hs : threadStep s = some { s with pc := .scan 0 false } := by simp [threadStep, hpc]
    obtain ⟨s', any', ht, h', hpc', hpend, hany⟩ := scan_finishes 16 (h.thread hs) rfl rfl
    obtain rfl := hany hall
    exact .of_threads (.head hs ht) (blocks_of_empty h' hpc' fun j => hpend j (.inr (hall j)))

theorem blocks_of_scan {any : Bool} (h : Inv s) (hpc : s.pc = .scan 0 any) : Blocks s := by
  obtain ⟨s', any', ht, h', hpc', hpend, -⟩ := scan_finishes 16 h hpc rfl
  exact .of_threads ht (blocks_of_end h' hpc' fun j => hpend j (.inl (Nat.zero_le _)))

theorem blocks_of_rechecks {i : ℕ} (h : Inv s) (hpc : s.pc = .rechecks i) : Blocks s := by
  have hi := h.bound i (.inr hpc)
  obtain ⟨s₁, ht, h₁, ⟨hpc₁, -⟩ | ⟨hpc₁, -⟩⟩ := recheck_finishes (16 - i) h hpc (by omega)
  · cases hw : s₁.waiting with
    | true => exact ⟨s₁, ht, hpc₁, hw⟩
    | false =>
      have hs : threadStep s₁ =
        some { s₁ with pc := .scan 0 false } := by simp [threadStep, hpc₁, hw]
      exact .of_threads (ht.tail hs) (blocks_of_scan (h₁.thread hs) rfl)
  · exact .of_threads ht (blocks_of_scan h₁ hpc₁)

theorem blocks_of_asserts (h : Inv s) (hpc : s.pc = .asserts) : Blocks s := by
  have hs : threadStep s = some { s with waiting := true, pc := .rechecks 0 } := by
    simp [threadStep, hpc]
  exact .of_threads (.single hs) (blocks_of_rechecks (h.thread hs) rfl)

theorem blocks_of_middle {i : ℕ} {any : Bool} (h : Inv s) (hpc : s.pc = .scan i any) :
    Blocks s := by
  have hi := h.bound i (.inl ⟨any, hpc⟩)
  obtain ⟨s₁, any', ht, h₁, hpc₁, -, -⟩ := scan_finishes (16 - i) h hpc (by omega)
  cases any' with
  | false =>
    have hs : threadStep s₁ = some { s₁ with pc := .asserts } := by simp [threadStep, hpc₁]
    exact .of_threads (ht.tail hs) (blocks_of_asserts (h₁.thread hs) rfl)
  | true =>
    have hs : threadStep s₁ = some { s₁ with pc := .scan 0 false } := by simp [threadStep, hpc₁]
    exact .of_threads (ht.tail hs) (blocks_of_scan (h₁.thread hs) rfl)

theorem Inv.blocks (h : Inv s) : Blocks s := by
  cases hpc : s.pc with
  | scan i any => exact blocks_of_middle h hpc
  | sends i =>
    have hs : threadStep s =
        some { s with owed := Function.update s.owed i false, pc := .scan (i + 1) true } := by
      simp [threadStep, hpc]
    exact .of_threads (.single hs) (blocks_of_middle (h.thread hs) rfl)
  | asserts => exact blocks_of_asserts h hpc
  | rechecks i => exact blocks_of_rechecks h hpc
  | blocked =>
    cases hw : s.waiting with
    | true => exact ⟨s, .refl, hpc, hw⟩
    | false =>
      have hs : threadStep s = some { s with pc := .scan 0 false } := by simp [threadStep, hpc, hw]
      exact .of_threads (.single hs) (blocks_of_scan (h.thread hs) rfl)

theorem Inv.delivers (h : Inv s) : Delivers s where
  notified hpc hw i := by
    by_contra howed
    rcases h.owed i (by simpa using howed) with hp | hsend
    · exact hp (h.blocked hpc hw i)
    · simp [hpc] at hsend
  masked := h.masked
  blocks := h.blocks

/-- In a calm run every interrupt is delivered, whatever the settings at boot. -/
theorem interrupts_delivered (setting : Line → Setting) (events : List Event) (s : State)
    (hcalm : StepsMeet step Calm (boot setting) events)
    (hrun : runSteps step (boot setting) events = some s) : Delivers s :=
  (runSteps_invariant_of_guard
    (fun _ _ _ h hcalm hs => h.step hcalm hs) (Inv.boot setting) hcalm hrun).delivers

theorem interrupts_delivered_line :
    ∃ s, runSteps step (boot isaSettings) [.register true 1 (some 1), .interrupt 1] = some s ∧
      s.owed 1 = true ∧ Delivers s :=
  ⟨_, rfl, rfl, interrupts_delivered isaSettings [.register true 1 (some 1), .interrupt 1] _
    ⟨fun _ => rfl, by rintro _ ⟨⟩; exact ⟨(by decide : 0 + 1 < 2 ^ 32), fun _ _ => trivial⟩⟩ rfl⟩

/-- Line 3 is masked by the handler, and the registration of line 5 opens it again. -/
theorem registration_unmasks_line :
    ∃ s, runSteps step (boot isaSettings)
        [.register true 3 (some 1), .interrupt 3, .register true 5 (some 2)] = some s ∧
      s.held 3 = true ∧ s.picMask 0 3 = false ∧ ¬Delivers s :=
  ⟨_, rfl, rfl, by decide, fun h => absurd (h.masked 3 rfl 0) (by decide)⟩

end Uros.Device
