import Mathlib.Algebra.Ring.Nat
import Uros.Foundation.Blit

/-!
The descriptors of libvfs, with their read-ahead and write-behind windows.

Each open descriptor has a window of bytes read ahead and a window of writes that the
server has not seen.  Requests go over a FLIPC channel when there is one and fall back to
Mach messages.  The server's answers are inputs: it may fail or shorten any request, and
what it has taken of a write it may have taken before it failed.  `Link` is the client's
connection together with the file as the server holds it and the log of the writes the
server has accepted, newest first.
-/

namespace Uros.Vfs

open Uros.Foundation

def vfsFlipcMaxRead : ℕ := 192 * 1024

def vfsPrefetchSize : ℕ := vfsFlipcMaxRead

structure Image (β : Type*) where
  size : ℕ
  byte : ℕ → β

variable {β : Type*}

namespace Image

def write (f : Image β) (off : ℕ) (bytes : List β) : Image β :=
  ⟨if bytes.isEmpty then f.size else max f.size (off + bytes.length), poke f.byte off bytes⟩

def read (f : Image β) (off n : ℕ) : List β := slice f.byte off (min n (f.size - off))

end Image

inductive Send where
  | lost (taken : ℕ)
  | refused (taken : ℕ)
  | took (missing : ℕ)
deriving DecidableEq

def Send.part : Send → List β → List β
  | .lost taken, bytes => bytes.take taken
  | .refused taken, bytes => bytes.take taken
  | .took missing, bytes => bytes.take (bytes.length - missing)

inductive Fetch where
  | lost
  | refused
  | gave (most : Option ℕ)
deriving DecidableEq

def cutTo : Option ℕ → List β → List β
  | none, bytes => bytes
  | some most, bytes => bytes.take most

inductive Reply (α : Type*) where
  | died
  | error
  | ok (a : α)
deriving DecidableEq

inductive Conn where
  | absent
  | untried
  | connected
  | unavailable
deriving DecidableEq

structure Window (β : Type*) where
  start : ℕ
  data : List β

structure Link (β : Type*) where
  enabled : Bool
  conn : Conn
  file : Image β
  accepted : List (Window β)

def Link.accept (l : Link β) (off : ℕ) (bytes : List β) : Link β :=
  { l with file := l.file.write off bytes, accepted := ⟨off, bytes⟩ :: l.accepted }

def vfsFlipcGet (l : Link β) (connect : Bool) : Link β × Bool :=
  match l.conn with
  | .absent => (l, false)
  | .connected => (l, true)
  | .unavailable => (l, false)
  | .untried =>
    if connect then ({ l with conn := .connected }, true)
    else ({ l with conn := .unavailable }, false)

def vfsFlipcWrite (l : Link β) (off : ℕ) (bytes : List β) (r : Send) : Link β × Option ℕ :=
  let part := r.part (bytes.take vfsFlipcMaxRead)
  match r with
  | .lost _ => ({ l.accept off part with conn := .unavailable }, none)
  | .refused _ => (l.accept off part, none)
  | .took _ => (l.accept off part, some part.length)

def fsWrite (l : Link β) (off : ℕ) (bytes : List β) (r : Send) : Link β × Reply ℕ :=
  let part := r.part (bytes.take (bytes.length % 2 ^ 32))
  match r with
  | .lost _ => (l.accept off part, .died)
  | .refused _ => (l.accept off part, .error)
  | .took _ => (l.accept off part, .ok part.length)

def fsRead (l : Link β) (off count : ℕ) : Fetch → Reply (List β)
  | .lost => .died
  | .refused => .error
  | .gave most => .ok (cutTo most (l.file.read off (count % 2 ^ 32)))

structure WbWindow (β : Type*) extends Window β where
  fits : data.length < vfsPrefetchSize

theorem vfsPrefetchSize_pos : 0 < vfsPrefetchSize := by decide

def WbWindow.empty (start : ℕ) : WbWindow β := ⟨⟨start, []⟩, vfsPrefetchSize_pos⟩

structure Entry (β : Type*) where
  dead : Bool
  offset : ℕ
  pfBuf : Bool
  pf : Window β
  wbBuf : Bool
  wb : WbWindow β

def Entry.fresh : Entry β := ⟨false, 0, false, ⟨0, []⟩, false, .empty 0⟩

def vfsMaxFds : ℕ := 64

instance : NeZero vfsMaxFds := ⟨by decide⟩

def vfsFdAlloc {γ : Type*} (fds : Fin vfsMaxFds → Option γ) : Option (Fin vfsMaxFds) :=
  (List.finRange vfsMaxFds).find? fun fd => (fds fd).isNone

structure Answers where
  connect : Bool
  allocate : Bool
  emits : List (Send × Send)
  fetches : List Fetch
  send : Send
  fetch : Fetch
  plain : Reply Unit
deriving DecidableEq

def Answers.fine (connect allocate : Bool) : Answers :=
  ⟨connect, allocate, [], [], .took 0, .gave none, .ok ()⟩

def nextEmit (rs : List (Send × Send)) : Send × Send := rs.headD (.took 0, .took 0)

def vfsWbEmit (c : Bool) (l : Link β) (w : Window β) (r : Send × Send) : Link β :=
  if w.data.isEmpty then l
  else
    let sent := if c then vfsFlipcWrite l w.start w.data r.1 else (l, none)
    if sent.2 = some w.data.length then sent.1 else (fsWrite sent.1 w.start w.data r.2).1

def vfsFlipcWbFlush (e : Entry β) (l : Link β) (a : Answers) : Entry β × Link β :=
  if e.wb.data.isEmpty then (e, l)
  else
    let got := vfsFlipcGet l a.connect
    ({ e with wb := .empty e.wb.start },
      vfsWbEmit got.2 got.1 e.wb.toWindow (nextEmit a.emits))

def wbFill : ℕ → Link β → WbWindow β → List β → List (Send × Send) → Link β × WbWindow β
  | 0, l, w, _, _ => (l, w)
  | fuel + 1, l, w, bytes, rs =>
    if bytes.isEmpty then (l, w)
    else
      let take := min bytes.length (vfsPrefetchSize - w.data.length)
      let data := w.data ++ bytes.take take
      if h : data.length < vfsPrefetchSize then
        wbFill fuel l ⟨⟨w.start, data⟩, h⟩ (bytes.drop take) rs
      else
        wbFill fuel (vfsWbEmit true l ⟨w.start, data⟩ (nextEmit rs))
          (.empty (w.start + data.length)) (bytes.drop take) rs.tail

def wbContinue (offset : ℕ) (l : Link β) (w : WbWindow β) (rs : List (Send × Send)) :
    Link β × WbWindow β × List (Send × Send) :=
  if w.data.isEmpty then (l, .empty offset, rs)
  else if offset = w.start + w.data.length then (l, w, rs)
  else (vfsWbEmit true l w.toWindow (nextEmit rs), .empty offset, rs.tail)

def vfsWritebehind (e : Entry β) (l : Link β) (bytes : List β) (a : Answers) :
    Option (Entry β × Link β) :=
  if e.dead then none
  else if !e.wbBuf && !a.allocate then none
  else
    let w := if e.wbBuf then e.wb else .empty e.wb.start
    let first := wbContinue e.offset l w a.emits
    let filled := wbFill bytes.length first.1 first.2.1 bytes first.2.2
    some ({ e with
      wbBuf := true
      wb := filled.2
      offset := e.offset + bytes.length
      pf := { e.pf with data := [] } }, filled.1)

inductive Fetched (β : Type*) where
  | failed (l : Link β)
  | got (pf : Window β) (rest : List Fetch)

def prefetchWindow (l : Link β) (offset : ℕ) (pf : Window β) (rs : List Fetch) : Fetched β :=
  if pf.start ≤ offset ∧ offset < pf.start + pf.data.length then .got pf rs
  else
    match rs.headD (.gave none) with
    | .lost => .failed { l with conn := .unavailable }
    | .refused => .failed l
    | .gave most => .got ⟨offset, cutTo most (l.file.read offset vfsPrefetchSize)⟩ rs.tail

structure Prefetched (β : Type*) where
  link : Link β
  pf : Window β
  out : List β
  err : Bool

def Window.give (w : Window β) (offset count : ℕ) : List β :=
  (w.data.drop (offset - w.start)).take count

def prefetchLoop : ℕ → Link β → ℕ → Window β → ℕ → List Fetch → Prefetched β
  | 0, l, _, pf, _, _ => ⟨l, pf, [], false⟩
  | fuel + 1, l, offset, pf, count, rs =>
    if count = 0 then ⟨l, pf, [], false⟩
    else
      match prefetchWindow l offset pf rs with
      | .failed l => ⟨l, pf, [], true⟩
      | .got pf rs =>
        let given := pf.give offset count
        if pf.data.isEmpty then ⟨l, pf, [], false⟩
        else
          let rest := prefetchLoop fuel l (offset + given.length) pf (count - given.length) rs
          { rest with out := given ++ rest.out }

def vfsPrefetchRead (e : Entry β) (l : Link β) (count : ℕ) (a : Answers) :
    Option (List β) × Entry β × Link β :=
  if e.dead then (none, e, l)
  else if !e.pfBuf && !a.allocate then (none, e, l)
  else
    let pf := if e.pfBuf then e.pf else { e.pf with data := [] }
    let done := prefetchLoop count l e.offset pf count a.fetches
    (if done.out.isEmpty && done.err then none else some done.out,
      { e with pfBuf := true, pf := done.pf, offset := e.offset + done.out.length }, done.link)

def vfsFlipcReadFastpath (e : Entry β) (l : Link β) (count : ℕ) (a : Answers) :
    Option (List β) × Entry β × Link β :=
  if !l.enabled then (none, e, l)
  else
    let got := vfsFlipcGet l a.connect
    if got.2 then vfsPrefetchRead e got.1 count a else (none, e, got.1)

def vfsFlipcWriteFastpath (e : Entry β) (l : Link β) (bytes : List β) (a : Answers) :
    Option (Entry β × Link β) × Link β :=
  if !l.enabled || bytes.isEmpty then (none, l)
  else
    let got := vfsFlipcGet l a.connect
    if got.2 then (vfsWritebehind e got.1 bytes a, got.1) else (none, got.1)

def machRead (e : Entry β) (l : Link β) (count : ℕ) (r : Fetch) :
    Option (List β) × Entry β × Link β :=
  match fsRead l e.offset count r with
  | .died => (none, { e with dead := true }, l)
  | .error => (none, e, l)
  | .ok data => (some data, { e with offset := e.offset + data.length }, l)

def vfsRead (e : Entry β) (l : Link β) (count : ℕ) (a : Answers) :
    Option (List β) × Entry β × Link β :=
  if e.dead then (none, e, l)
  else
    let flushed := vfsFlipcWbFlush e l a
    match vfsFlipcReadFastpath flushed.1 flushed.2 count a with
    | (some data, e, l) => (some data, e, l)
    | (none, e, l) => machRead e l count a.fetch

def machWrite (e : Entry β) (l : Link β) (bytes : List β) (r : Send) :
    Option ℕ × Entry β × Link β :=
  let sent := fsWrite l e.offset bytes r
  match sent.2 with
  | .died => (none, { e with dead := true }, sent.1)
  | .error => (none, e, sent.1)
  | .ok written =>
    (some written,
      { e with offset := e.offset + written, pf := { e.pf with data := [] } }, sent.1)

def vfsWrite (e : Entry β) (l : Link β) (bytes : List β) (a : Answers) :
    Option ℕ × Entry β × Link β :=
  if e.dead then (none, e, l)
  else
    match vfsFlipcWriteFastpath e l bytes a with
    | (some (e, l), _) => (some bytes.length, e, l)
    | (none, l) => machWrite e l bytes a.send

def vfsFstat (e : Entry β) (l : Link β) (a : Answers) : Option ℕ × Entry β × Link β :=
  let flushed := vfsFlipcWbFlush e l a
  if flushed.1.dead then (none, flushed)
  else
    match a.plain with
    | .died => (none, { flushed.1 with dead := true }, flushed.2)
    | .error => (none, flushed)
    | .ok _ => (some flushed.2.file.size, flushed)

inductive Whence where
  | set
  | cur
  | fromEnd
  | other
deriving DecidableEq

/-- An `off_t` is unsigned, so that no target is negative. -/
def seekTo (e : Entry β) (l : Link β) (target : UInt32) : Option UInt32 × Entry β × Link β :=
  if e.dead || target < 0 then (none, e, l)
  else (some target, { e with offset := target.toNat }, l)

def vfsLseek (e : Entry β) (l : Link β) (offset : UInt32) (whence : Whence) (a : Answers) :
    Option UInt32 × Entry β × Link β :=
  let flushed := vfsFlipcWbFlush e l a
  match whence with
  | .set => seekTo flushed.1 flushed.2 offset
  | .cur => seekTo flushed.1 flushed.2 (.ofNat flushed.1.offset + offset)
  | .fromEnd =>
    match vfsFstat flushed.1 flushed.2 a with
    | (none, e, l) => (none, e, l)
    | (some size, e, l) => seekTo e l (.ofNat size + offset)
  | .other => (none, flushed)

def vfsSync (e : Entry β) (l : Link β) (a : Answers) : Bool × Entry β × Link β :=
  let flushed := vfsFlipcWbFlush e l a
  if flushed.1.dead then (false, flushed)
  else
    match a.plain with
    | .died => (false, { flushed.1 with dead := true }, flushed.2)
    | .error => (false, flushed)
    | .ok _ => (true, flushed)

def vfsClose (e : Entry β) (l : Link β) (a : Answers) : Link β := (vfsFlipcWbFlush e l a).2

variable {l : Link β}

theorem vfsWrite_cases (e : Entry β) (l : Link β) (bytes : List β) (a : Answers) :
    e.dead = true ∧ vfsWrite e l bytes a = (none, e, l) ∨
      (∃ e' l', l.enabled = true ∧ (vfsFlipcGet l a.connect).2 = true ∧
        vfsWritebehind e (vfsFlipcGet l a.connect).1 bytes a = some (e', l') ∧
        vfsWrite e l bytes a = (some bytes.length, e', l')) ∨
      e.dead = false ∧
        ∃ l₀, vfsWrite e l bytes a = machWrite e l₀ bytes a.send ∧
          (l₀ = l ∧ (l.enabled = false ∨ bytes = []) ∨
            l₀ = (vfsFlipcGet l a.connect).1 ∧
              ((vfsFlipcGet l a.connect).2 = false ∨ vfsWritebehind e l₀ bytes a = none)) := by
  unfold vfsWrite
  split
  · next hdead => exact .inl ⟨hdead, rfl⟩
  · next hdead =>
    right
    have hlive : e.dead = false := by simpa using hdead
    unfold vfsFlipcWriteFastpath
    by_cases hslow : (!l.enabled || bytes.isEmpty) = true
    · rw [if_pos hslow]
      exact .inr ⟨hlive, l, rfl, .inl ⟨rfl, by simpa using hslow⟩⟩
    · have henabled : l.enabled = true := by
        simp only [Bool.or_eq_true, Bool.not_eq_true', not_or, Bool.not_eq_false] at hslow
        exact hslow.1
      rw [if_neg hslow]
      dsimp only
      by_cases hconn : (vfsFlipcGet l a.connect).2 = true
      · rw [if_pos hconn]
        cases hdone : vfsWritebehind e (vfsFlipcGet l a.connect).1 bytes a with
        | none => exact .inr ⟨hlive, _, rfl, .inr ⟨rfl, .inr hdone⟩⟩
        | some done => exact .inl ⟨done.1, done.2, henabled, hconn, rfl, rfl⟩
      · rw [if_neg hconn]
        exact .inr ⟨hlive, _, rfl, .inr ⟨rfl, .inl (by simpa using hconn)⟩⟩

end Uros.Vfs
