import Mathlib.Data.List.Basic
import Uros.Cap.Kernel
import Uros.Foundation.Transition

/-!
The authority of display requests (`gpu_server`).

One thread takes the messages of the service port and of the port for revocation notices
through one demultiplexer.  A message comes with the state of the kernel's capabilities at
that time.  The text queue is drained by the render thread; what the back-end does with a
surface is a parameter.
-/

namespace Uros.Gpu

open Uros.Foundation Uros.Cap

def capDevOpen : UInt32 := 1

def capDisplayScanout : UInt32 := 4

def maxDevices : UInt32 := 8

def maxHandles : ℕ := 32

def textQueueDepth : ℕ := 16

def bufMax : ℕ := 4096

structure Handle where
  capId : UInt64
  devId : UInt32
  deriving DecidableEq

structure Backend (δ : Type) where
  inUse : UInt32 → Bool
  puts : UInt32 → Bytes → δ → δ
  setActive : UInt32 → δ → δ
  scroll : Int → δ → δ

/-- The server.  The notices of `cap_server` that it has processed, and the rows whose open
passed the kernel's check, are history. -/
structure State (δ : Type) where
  display : δ
  queue : List (UInt32 × Bytes)
  handles : List (Option Handle)
  noticed : List UInt64
  granted : List Handle

def init {δ : Type} (display : δ) : State δ := ⟨display, [], List.replicate maxHandles none, [], []⟩

inductive Request where
  | textPutsOn (surface : UInt32) (buf : Bytes)
  | textSetActive (surface : UInt32)
  | textScroll (delta : Int)
  | deviceOpen (devId : UInt32)
  | deviceClose (devId : UInt32)

/-- What the server thread receives: a request with its token, or a notice, which anybody may
send; and a step of the render thread. -/
inductive Event where
  | request (token : Bytes) (r : Request)
  | revokeNotify (fromCapServer : Bool) (capId : UInt64)
  | render

def Request.needs : Request → UInt32 × UInt64
  | .deviceOpen devId | .deviceClose devId => (capDevOpen, devId.toUInt64)
  | _ => (capDisplayScanout, 0)

section Server

variable {δ : Type} (mac : Mac) (b : Backend δ)

def capCheck (k : KernelCaps) (token : Bytes) (op : UInt32) (resourceId : UInt64) : Bool :=
  if token.length = 0 then true
  else if token.length ≠ capTokenSize then false
  else urmachCapVerify mac k token op resourceId = .success

def capIdFromToken (token : Bytes) : UInt64 :=
  if token.length ≠ capTokenSize then 0 else (UrosCap.decode token).capId

def devLookup (devId : UInt32) : Bool := devId ≠ 0 && devId < maxDevices && b.inUse devId

def handleOpen (handles : List (Option Handle)) (h : Handle) : List (Option Handle) :=
  if some h ∈ handles then handles
  else if none ∈ handles then handles.set (handles.idxOf none) (some h)
  else handles

def handleClose (handles : List (Option Handle)) (h : Handle) : List (Option Handle) :=
  if some h ∈ handles then handles.set (handles.idxOf (some h)) none else handles

def handleRevoke (handles : List (Option Handle)) (capId : UInt64) : List (Option Handle) :=
  handles.map fun slot => slot.filter fun h => h.capId ≠ capId

def enqueueSurface (queue : List (UInt32 × Bytes)) (surface : UInt32) (buf : Bytes) :
    List (UInt32 × Bytes) :=
  if buf = [] then queue
  else (if textQueueDepth ≤ queue.length then queue.tail else queue) ++ [(surface, buf.take bufMax)]

def Passes (k : KernelCaps) (token : Bytes) (r : Request) : Prop :=
  urmachCapVerify mac k token r.needs.1 r.needs.2 = .success

instance Passes.decidable (k : KernelCaps) (token : Bytes) (r : Request) :
    Decidable (Passes mac k token r) :=
  inferInstanceAs (Decidable (_ = _))

def serve (s : State δ) (k : KernelCaps) (token : Bytes) (r : Request) : State δ :=
  match r with
  | .textPutsOn surface buf => { s with queue := enqueueSurface s.queue surface buf }
  | .textSetActive surface => { s with display := b.setActive surface s.display }
  | .textScroll delta => { s with display := b.scroll delta s.display }
  | .deviceOpen devId =>
    let h : Handle := ⟨capIdFromToken token, devId⟩
    if devLookup b devId then
      { s with
        handles := handleOpen s.handles h
        granted := if Passes mac k token r then h :: s.granted else s.granted }
    else s
  | .deviceClose devId => { s with handles := handleClose s.handles ⟨capIdFromToken token, devId⟩ }

def step (s : State δ) (l : KernelCaps × Event) : Option (State δ) :=
  match l.2 with
  | .request token r =>
    some (if capCheck mac l.1 token r.needs.1 r.needs.2 then serve mac b s l.1 token r else s)
  | .revokeNotify fromCapServer capId =>
    some { s with
      handles := handleRevoke s.handles capId
      noticed := if fromCapServer then capId :: s.noticed else s.noticed }
  | .render =>
    match s.queue with
    | [] => none
    | c :: queue => some { s with queue := queue, display := b.puts c.1 c.2 s.display }

/-- Requests carry a token, notices come from `cap_server`, and no device is opened with a
capability that still verifies after its notice. -/
def Honest (s : State δ) (l : KernelCaps × Event) : Prop :=
  match l.2 with
  | .request token r => token ≠ [] ∧ ∀ devId, r = .deviceOpen devId →
      Passes mac l.1 token r → capIdFromToken token ∉ s.noticed
  | .revokeNotify fromCapServer _ => fromCapServer = true
  | .render => True

/-- What a step may do: a request that changes anything has a token that passes; the rows were
opened with a check that passed, and no notice for them was processed; a row goes away by a
close with its own capability or by a notice of `cap_server`. -/
structure Authorised (s : State δ) (l : KernelCaps × Event) (s' : State δ) : Prop where
  change : ∀ token r, l.2 = .request token r → s' ≠ s → Passes mac l.1 token r
  rows : ∀ h, some h ∈ s.handles → h ∈ s.granted ∧ h.capId ∉ s.noticed
  kept : ∀ h, some h ∈ s.handles → some h ∉ s'.handles →
    (∃ token, l.2 = .request token (.deviceClose h.devId) ∧ capIdFromToken token = h.capId ∧
      Passes mac l.1 token (.deviceClose h.devId)) ∨ l.2 = .revokeNotify true h.capId

def Rows (s : State δ) : Prop := ∀ h, some h ∈ s.handles → h ∈ s.granted ∧ h.capId ∉ s.noticed

variable {mac b} {s s' : State δ} {l : KernelCaps × Event} {k : KernelCaps} {token : Bytes}
    {h h' : Handle}
  {handles : List (Option Handle)}

theorem passes_of_capCheck {r : Request} (hne : token ≠ [])
    (hc : capCheck mac k token r.needs.1 r.needs.2 = true) : Passes mac k token r := by
  have hlen : token.length ≠ 0 := by simpa using hne
  unfold capCheck at hc
  rw [if_neg hlen] at hc
  split at hc
  · cases hc
  · exact of_decide_eq_true hc

theorem mem_handleOpen (hin : some h' ∈ handleOpen handles h) : h' = h ∨ some h' ∈ handles := by
  unfold handleOpen at hin
  split at hin
  · exact .inr hin
  · split at hin
    · rcases List.mem_or_eq_of_mem_set hin with hin | heq
      · exact .inr hin
      · exact .inl (by simpa using heq)
    · exact .inr hin

theorem mem_of_mem_handleClose (hin : some h' ∈ handleClose handles h) : some h' ∈ handles := by
  unfold handleClose at hin
  split at hin
  · rcases List.mem_or_eq_of_mem_set hin with hin | heq
    · exact hin
    · cases heq
  · exact hin

theorem mem_handleRevoke {capId : UInt64} :
    some h ∈ handleRevoke handles capId ↔ some h ∈ handles ∧ h.capId ≠ capId := by
  simp [handleRevoke, Option.filter_eq_some_iff]

theorem mem_set_of_ne {x y : Option Handle} (hx : x ∈ handles) (hne : x ≠ y) (z : Option Handle) :
    x ∈ handles.set (handles.idxOf y) z := by
  obtain ⟨i, hi, rfl⟩ := List.mem_iff_getElem.mp hx
  refine List.mem_iff_getElem.mpr ⟨i, by simpa using hi, ?_⟩
  refine List.getElem_set_of_ne ?_ _ _
  rintro rfl
  exact hne (List.getElem_idxOf hi)

theorem mem_handleOpen_of_mem (hin : some h' ∈ handles) : some h' ∈ handleOpen handles h := by
  unfold handleOpen
  split
  · exact hin
  · split
    · exact mem_set_of_ne hin (by simp) _
    · exact hin

theorem mem_handleClose_of_mem (hin : some h' ∈ handles) (hne : h' ≠ h) :
    some h' ∈ handleClose handles h := by
  unfold handleClose
  split
  · exact mem_set_of_ne hin (by simpa using hne) _
  · exact hin

theorem Rows.serve {r : Request} (hr : Rows s) (hp : Passes mac k token r)
    (hfresh : ∀ devId, r = .deviceOpen devId → capIdFromToken token ∉ s.noticed) :
    Rows (serve mac b s k token r) := by
  cases r with
  | deviceOpen devId =>
    dsimp only [Gpu.serve]
    split
    · intro h hin
      dsimp only at hin ⊢
      rcases mem_handleOpen hin with rfl | hin
      · exact ⟨by simp, hfresh devId rfl⟩
      · exact ⟨List.mem_cons_of_mem _ (hr h hin).1, (hr h hin).2⟩
    · exact hr
  | deviceClose devId => exact fun h hin => hr h (mem_of_mem_handleClose hin)
  | _ => exact hr

theorem Rows.step (hr : Rows s) (hh : Honest mac s l) (hs : Gpu.step mac b s l = some s') :
    Rows s' := by
  obtain ⟨k, e⟩ := l
  cases e with
  | request token r =>
    obtain rfl := Option.some.inj hs
    split
    · next hc =>
      have hp := passes_of_capCheck hh.1 hc
      exact hr.serve hp fun devId hopen => hh.2 devId hopen hp
    · exact hr
  | revokeNotify fromCapServer capId =>
    obtain rfl := Option.some.inj hs
    obtain rfl : fromCapServer = true := hh
    intro h hin
    obtain ⟨hin, hne⟩ := mem_handleRevoke.mp hin
    exact ⟨(hr h hin).1, by simp [hne, (hr h hin).2]⟩
  | render =>
    dsimp only [Gpu.step] at hs
    split at hs
    · cases hs
    · obtain rfl := Option.some.inj hs
      exact hr

theorem close_of_lost {r : Request} (hin : some h ∈ s.handles)
    (hlost : some h ∉ (serve mac b s k token r).handles) :
    r = .deviceClose h.devId ∧ capIdFromToken token = h.capId := by
  cases r with
  | deviceOpen devId =>
    dsimp only [serve] at hlost
    split at hlost
    · exact absurd (mem_handleOpen_of_mem hin) hlost
    · exact absurd hin hlost
  | deviceClose devId =>
    by_cases hsame : h = ⟨capIdFromToken token, devId⟩
    · subst hsame
      exact ⟨rfl, rfl⟩
    · exact absurd (mem_handleClose_of_mem hin hsame) hlost
  | _ => exact absurd hin hlost

theorem authorised_step (hr : Rows s) (hh : Honest mac s l) (hs : step mac b s l = some s') :
    Authorised mac s l s' := by
  obtain ⟨k, e⟩ := l
  refine ⟨?_, hr, ?_⟩
  · rintro token r rfl hne
    obtain rfl := Option.some.inj hs
    split at hne
    · next hc => exact passes_of_capCheck hh.1 hc
    · exact absurd rfl hne
  · intro h hin hlost
    cases e with
    | request token r =>
      obtain rfl := Option.some.inj hs
      split at hlost
      · next hc =>
        obtain ⟨rfl, hid⟩ := close_of_lost hin hlost
        exact .inl ⟨token, rfl, hid, passes_of_capCheck hh.1 hc⟩
      · exact absurd hin hlost
    | revokeNotify fromCapServer capId =>
      obtain rfl := Option.some.inj hs
      obtain rfl : fromCapServer = true := hh
      have hid : h.capId = capId := by
        by_contra hne
        exact hlost (mem_handleRevoke.mpr ⟨hin, hne⟩)
      exact .inr (by rw [hid])
    | render =>
      dsimp only [step] at hs
      split at hs
      · cases hs
      · obtain rfl := Option.some.inj hs
        exact absurd hin hlost

/-- In every honest run every step is authorised. -/
theorem gpu_requests_authorised (mac : Mac) (b : Backend δ) (display : δ)
    (ls : List (KernelCaps × Event)) (l : KernelCaps × Event) (s s' : State δ)
    (hg : StepsMeet (step mac b) (Honest mac) (init display) ls)
    (hrun : runSteps (step mac b) (init display) ls = some s) (hh : Honest mac s l)
    (hs : step mac b s l = some s') : Authorised mac s l s' := by
  have hinit : Rows (init display) := by
    intro h hin
    simp [init] at hin
  exact authorised_step
    (runSteps_invariant_of_guard (fun _ _ _ h hg hs => h.step hg hs) hinit hg hrun)
    hh hs

end Server

def counting : Backend ℕ where
  inUse := fun devId => devId = 1
  puts := fun _ _ n => n + 1
  setActive := fun _ n => n + 1
  scroll := fun _ n => n + 1

def zeroMac : Mac := fun _ _ => Vector.replicate 32 0

def keyed : KernelCaps := { capInit with keySet := true }

def deviceToken : Bytes :=
  UrosCap.encode { UrosCap.zero with capId := 5, resourceId := 1, allowedOps := 1 }

theorem gpu_requests_authorised_open :
    ∃ s, runSteps (step zeroMac counting) (init 0)
      [(keyed, .request deviceToken (.deviceOpen 1))] = some s ∧ some ⟨5, 1⟩ ∈ s.handles ∧
      ∃ s', step zeroMac counting s (keyed, .revokeNotify true 5) = some s' ∧
        Authorised zeroMac s (keyed, .revokeNotify true 5) s' := by
  refine ⟨_, rfl, by decide +kernel, _, rfl, ?_⟩
  refine gpu_requests_authorised _ counting 0 [(keyed, .request deviceToken (.deviceOpen 1))] _ _ _
    ⟨⟨fun h => ?_, by simp [init]⟩, fun _ _ => trivial⟩ rfl rfl rfl
  have hlen := congrArg List.length h
  simp [deviceToken, capTokenSize] at hlen

/-- A request without a token opens a device although no token passes, and anybody closes it
with a notice. -/
theorem tokenless_open_changes_handles :
    ∃ s s', runSteps (step zeroMac counting) (init 0)
      [(capInit, .request [] (.deviceOpen 1))] = some s ∧ s.handles ≠ (init 0).handles ∧
      (∀ token r, ¬Passes zeroMac capInit token r) ∧
      step zeroMac counting s (capInit, .revokeNotify false 0) = some s' ∧
      ¬Authorised zeroMac s (capInit, .revokeNotify false 0) s' := by
  refine ⟨_, _, rfl, by decide, ?_, rfl, ?_⟩
  · intro token r hp
    unfold Passes urmachCapVerify at hp
    split at hp
    · cases hp
    · simp [capCheckLocked, capInit] at hp
  · intro h
    rcases h.kept ⟨0, 1⟩ (by decide) (by decide) with ⟨token, hreq, -⟩ | hnotice
    · cases hreq
    · cases hnotice

end Uros.Gpu
