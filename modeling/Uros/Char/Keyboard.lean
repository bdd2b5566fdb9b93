import Mathlib.Data.UInt
import Mathlib.Logic.Function.Basic
import Uros.Foundation.Transition

/-!
The decoder of the PS/2 keyboard and the keys that are held.

A set-1 keyboard sends a code for each key that goes down, again while it stays down, and
for each key that goes up; some keys have the prefix `E0`, and Pause sends six bytes at once.
The decoder keeps one bit for each modifier and one for a prefix that it has seen.
-/

namespace Uros.Char.Keyboard

open Uros.Foundation

inductive Mod where
  | shift
  | ctrl
  | alt
  | capslock
  | numlock
  | scrolllock
  deriving DecidableEq

def ksymNone : ℕ := 0
def ksymEsc : ℕ := 0xFF1B
def ksymBackspace : ℕ := 0xFF08
def ksymTab : ℕ := 0xFF09
def ksymReturn : ℕ := 0xFF0D
def ksymLshift : ℕ := 0xFFE1
def ksymRshift : ℕ := 0xFFE2
def ksymLctrl : ℕ := 0xFFE3
def ksymRctrl : ℕ := 0xFFE4
def ksymLalt : ℕ := 0xFFE9
def ksymRalt : ℕ := 0xFFEA
def ksymCapslock : ℕ := 0xFFE5
def ksymNumlock : ℕ := 0xFF7F
def ksymScrolllock : ℕ := 0xFF14

def scset1 (digits upper middle lower : List ℕ) : List ℕ :=
  [ksymNone, ksymEsc] ++ digits ++ [ksymBackspace, ksymTab] ++ upper ++ [ksymReturn, ksymLctrl] ++
    middle.take 12 ++ [ksymLshift] ++ middle.drop 12 ++ lower ++
      [ksymRshift, 0x2A, ksymLalt, 0x20, ksymCapslock, 0xFFBE, 0xFFBF, 0xFFC0, 0xFFC1] ++
        List.replicate 6 ksymNone ++ [ksymNumlock, ksymScrolllock]

def chars (l : List Char) : List ℕ := l.map Char.toNat

def scset1Plain : List ℕ :=
  scset1 (chars ['1', '2', '3', '4', '5', '6', '7', '8', '9', '0', '-', '='])
    (chars ['q', 'w', 'e', 'r', 't', 'y', 'u', 'i', 'o', 'p', '[', ']'])
    (chars ['a', 's', 'd', 'f', 'g', 'h', 'j', 'k', 'l', ';'] ++ [0x27, 0x60, 0x5C])
    (chars ['z', 'x', 'c', 'v', 'b', 'n', 'm'] ++ [0x2C, 0x2E, 0x2F])

def scset1Shift : List ℕ :=
  scset1 (chars ['!', '@', '#', '$', '%', '^', '&', '*', '(', ')', '_', '+'])
    (chars ['Q', 'W', 'E', 'R', 'T', 'Y', 'U', 'I', 'O', 'P'] ++ [0x7B, 0x7D])
    (chars ['A', 'S', 'D', 'F', 'G', 'H', 'J', 'K', 'L', ':'] ++ [0x22, 0x7E, 0x7C])
    (chars ['Z', 'X', 'C', 'V', 'B', 'N', 'M'] ++ [0x3C, 0x3E, 0x3F])

def e0Keysym (code : ℕ) : ℕ :=
  match code with
  | 0x1D => ksymRctrl
  | 0x38 => ksymRalt
  | 0x47 => 0xFF50
  | 0x48 => 0xFF52
  | 0x49 => 0xFF55
  | 0x4B => 0xFF51
  | 0x4D => 0xFF53
  | 0x4F => 0xFF57
  | 0x50 => 0xFF54
  | 0x51 => 0xFF56
  | 0x52 => 0xFF63
  | 0x53 => 0xFFFF
  | _ => ksymNone

structure Ps2 where
  modifiers : Mod → Bool
  e0Pending : Bool

structure KbdEvent where
  scancode : ℕ
  keysym : ℕ
  modifiers : Mod → Bool
  pressed : Bool

def modBit (keysym : ℕ) : Option Mod :=
  if keysym = ksymLshift ∨ keysym = ksymRshift then some .shift
  else if keysym = ksymLctrl ∨ keysym = ksymRctrl then some .ctrl
  else if keysym = ksymLalt ∨ keysym = ksymRalt then some .alt
  else none

def lockBit (keysym : ℕ) : Option Mod :=
  if keysym = ksymCapslock then some .capslock
  else if keysym = ksymNumlock then some .numlock
  else if keysym = ksymScrolllock then some .scrolllock
  else none

def setMod (mods : Mod → Bool) (pressed : Bool) : Option Mod → Mod → Bool
  | some m => Function.update mods m pressed
  | none => mods

def toggle (mods : Mod → Bool) (pressed : Bool) : Option Mod → Mod → Bool
  | some m => if pressed then Function.update mods m (!mods m) else mods
  | none => mods

def keysymOf (mods : Mod → Bool) (e0 : Bool) (code : ℕ) : ℕ :=
  if e0 then e0Keysym code
  else if mods .shift || mods .capslock then scset1Shift.getD code ksymNone
  else scset1Plain.getD code ksymNone

def handleScancode (p : Ps2) (sc : UInt8) (ddbBreak : Bool) : Ps2 × Option KbdEvent :=
  let code := (sc &&& 0x7F).toNat
  let pressed := sc &&& 0x80 == 0
  if sc = 0xE0 then ({ p with e0Pending := true }, none)
  else if sc = 0xE1 then ({ p with e0Pending := false }, none)
  else
    let keysym := keysymOf p.modifiers p.e0Pending code
    let mods := toggle (setMod p.modifiers pressed (modBit keysym)) pressed (lockBit keysym)
    if pressed && keysym == 0x64 && mods .ctrl && ddbBreak then (⟨mods, false⟩, none)
    else
      (⟨mods, false⟩,
        some ⟨if p.e0Pending then 0xE000 ||| code else code, keysym, mods, pressed⟩)

def feed (ddbBreak : Bool) : Ps2 → List UInt8 → Ps2 × List KbdEvent
  | p, [] => (p, [])
  | p, sc :: rest =>
    let r := handleScancode p sc ddbBreak
    let q := feed ddbBreak r.1 rest
    (q.1, r.2.toList ++ q.2)

structure Key where
  e0 : Bool
  code : Fin 128
  valid : code ≠ 0x60 ∧ code ≠ 0x61
  deriving DecidableEq

def modOf (e0 : Bool) (code : Fin 128) : Option Mod :=
  if (code = 0x2A ∨ code = 0x36) ∧ e0 = false then some .shift
  else if code = 0x1D then some .ctrl
  else if code = 0x38 then some .alt
  else none

def lockOf (e0 : Bool) (code : Fin 128) : Option Mod :=
  if e0 then none
  else if code = 0x3A then some .capslock
  else if code = 0x45 then some .numlock
  else if code = 0x46 then some .scrolllock
  else none

def Key.mod (k : Key) : Option Mod := modOf k.e0 k.code

def Key.lock (k : Key) : Option Mod := lockOf k.e0 k.code

inductive KeyAction where
  | down (k : Key) (ddbBreak : Bool)
  | up (k : Key)
  | pause

def KeyAction.bytes : KeyAction → List UInt8
  | .down k _ => (if k.e0 then [0xE0] else []) ++ [UInt8.ofNat k.code]
  | .up k => (if k.e0 then [0xE0] else []) ++ [UInt8.ofNat k.code ||| 0x80]
  | .pause => [0xE1, 0x1D, 0x45, 0xE1, 0x9D, 0xC5]

def KeyAction.ddb : KeyAction → Bool
  | .down _ ddbBreak => ddbBreak
  | _ => false

structure Held where
  held : Key → Bool
  odd : Mod → Bool

def Held.act (kb : Held) : KeyAction → Held
  | .down k _ =>
    ⟨Function.update kb.held k true, if kb.held k then kb.odd else toggle kb.odd true k.lock⟩
  | .up k => { kb with held := Function.update kb.held k false }
  | .pause => kb

def Mod.isLock : Mod → Bool
  | .capslock | .numlock | .scrolllock => true
  | _ => false

def Held.Expects (kb : Held) (m : Mod) : Prop :=
  if m.isLock then kb.odd m = true else ∃ k, kb.held k = true ∧ k.mod = some m

def Held.Agrees (kb : Held) (mods : Mod → Bool) : Prop := ∀ m, mods m = true ↔ kb.Expects m

def KeyAction.Consumed (kb : Held) (a : KeyAction) : Prop :=
  ∃ k, a = .down k true ∧ k.e0 = false ∧ k.code = 0x20 ∧ kb.Expects .ctrl

abbrev System := Held × Ps2

def init : System := (⟨fun _ => false, fun _ => false⟩, ⟨fun _ => false, false⟩)

def events (s : System) (a : KeyAction) : List KbdEvent := (feed a.ddb s.2 a.bytes).2

def step (s : System) (a : KeyAction) : Option System :=
  some (s.1.act a, (feed a.ddb s.2 a.bytes).1)

def Follows (s : System) (a : KeyAction) : Prop :=
  (∀ ev ∈ events s a, (s.1.act a).Agrees ev.modifiers) ∧
    (a ≠ .pause → (events s a).length = 1 ∨ (events s a = [] ∧ a.Consumed (s.1.act a)))

/-- No Pause, no repetition of a lock key, and no modifier key goes up while the other one of its
kind is held. -/
def Simple (s : System) : KeyAction → Prop
  | .down k _ => k.lock ≠ none → s.1.held k = false
  | .up k => k.mod ≠ none → ∀ k', k' ≠ k → s.1.held k' = true → k'.mod ≠ k.mod
  | .pause => False

section

variable {kb : Held} {p : Ps2} {k : Key} {mods : Mod → Bool} {d : Bool}

theorem makeCode_bits : ∀ code : Fin 128,
    (UInt8.ofNat code &&& 0x7F).toNat = code ∧ (UInt8.ofNat code &&& 0x80 == 0) = true ∧
      UInt8.ofNat code ≠ 0xE0 ∧ UInt8.ofNat code ≠ 0xE1 := by
  decide

theorem breakCode_bits : ∀ code : Fin 128,
    ((UInt8.ofNat code ||| 0x80) &&& 0x7F).toNat = code ∧
      ((UInt8.ofNat code ||| 0x80) &&& 0x80 == 0) = false ∧
      (code ≠ 0x60 → UInt8.ofNat code ||| 0x80 ≠ 0xE0) ∧
      (code ≠ 0x61 → UInt8.ofNat code ||| 0x80 ≠ 0xE1) := by
  decide

theorem e0Keysym_bits : ∀ code : Fin 128, modBit (e0Keysym code) = modOf true code ∧
    lockBit (e0Keysym code) = lockOf true code ∧ e0Keysym code ≠ 0x64 := by
  decide

theorem scset1_bits : ∀ code : Fin 128, ∀ table ∈ [scset1Plain, scset1Shift],
    modBit (table.getD code ksymNone) = modOf false code ∧
      lockBit (table.getD code ksymNone) = lockOf false code ∧
      (table.getD code ksymNone = 0x64 → code = 0x20) := by
  decide

theorem keysymOf_bits (mods : Mod → Bool) (k : Key) :
    modBit (keysymOf mods k.e0 k.code) = k.mod ∧ lockBit (keysymOf mods k.e0 k.code) = k.lock ∧
      (keysymOf mods k.e0 k.code = 0x64 → k.e0 = false ∧ k.code = 0x20) := by
  obtain ⟨e0, code, -⟩ := k
  cases e0 with
  | true =>
    obtain ⟨hmod, hlock, hd⟩ := e0Keysym_bits code
    exact ⟨hmod, hlock, fun h => absurd h hd⟩
  | false =>
    have htable : ∃ table ∈ [scset1Plain, scset1Shift],
        keysymOf mods false code = table.getD code ksymNone := by
      unfold keysymOf
      split
      · contradiction
      · split
        · exact ⟨_, by simp, rfl⟩
        · exact ⟨_, by simp, rfl⟩
    obtain ⟨table, hmem, heq⟩ := htable
    obtain ⟨hmod, hlock, hd⟩ := scset1_bits code table hmem
    exact ⟨heq ▸ hmod, heq ▸ hlock, fun h => ⟨rfl, hd (heq ▸ h)⟩⟩

def after (mods : Mod → Bool) (pressed : Bool) (k : Key) : Mod → Bool :=
  toggle (setMod mods pressed k.mod) pressed k.lock

theorem feed_key {pressed : Bool} {sc : UInt8} (hp : p.e0Pending = false)
    (hcode : (sc &&& 0x7F).toNat = k.code) (hpressed : (sc &&& 0x80 == 0) = pressed)
    (h0 : sc ≠ 0xE0) (h1 : sc ≠ 0xE1) :
    ∃ r, feed d p ((if k.e0 then [0xE0] else []) ++ [sc]) =
        (⟨after p.modifiers pressed k, false⟩, r) ∧
      ((∃ ev, r = [ev] ∧ ev.modifiers = after p.modifiers pressed k) ∨
        r = [] ∧ pressed = true ∧ d = true ∧ k.e0 = false ∧ k.code = 0x20 ∧
          after p.modifiers pressed k .ctrl = true) := by
  obtain ⟨hmod, hlock, hd⟩ := keysymOf_bits p.modifiers k
  have hone : ∀ q : Ps2, q.modifiers = p.modifiers → q.e0Pending = k.e0 →
      ∃ o, handleScancode q sc d = (⟨after p.modifiers pressed k, false⟩, o) ∧
        ((∃ ev, o = some ev ∧ ev.modifiers = after p.modifiers pressed k) ∨
          o = none ∧ pressed = true ∧ d = true ∧ k.e0 = false ∧ k.code = 0x20 ∧
            after p.modifiers pressed k .ctrl = true) := by
    intro q hq hq0
    simp only [handleScancode, if_neg h0, if_neg h1, hcode, hpressed, hq, hq0, hmod, hlock]
    split
    · next hbreak =>
      simp only [Bool.and_eq_true, beq_iff_eq] at hbreak
      obtain ⟨⟨⟨hdown, hkey⟩, hctrl⟩, hddb⟩ := hbreak
      exact ⟨_, rfl, .inr ⟨rfl, hdown, hddb, (hd hkey).1, (hd hkey).2, hctrl⟩⟩
    · exact ⟨_, rfl, .inl ⟨_, rfl, rfl⟩⟩
  have hbytes : feed d p ((if k.e0 then [0xE0] else []) ++ [sc]) =
      ((handleScancode { p with e0Pending := k.e0 } sc d).1,
        (handleScancode { p with e0Pending := k.e0 } sc d).2.toList) := by
    cases hk : k.e0 with
    | true => simp [feed, handleScancode]
    | false =>
      have hsame : { p with e0Pending := false } = p := by rw [← hp]
      simp [feed, hsame]
  obtain ⟨o, ho, hcases⟩ := hone { p with e0Pending := k.e0 } rfl rfl
  refine ⟨o.toList, by rw [hbytes, ho], ?_⟩
  rcases hcases with ⟨ev, rfl, hev⟩ | ⟨rfl, hrest⟩
  · exact .inl ⟨ev, rfl, hev⟩
  · exact .inr ⟨rfl, hrest⟩

theorem feed_down (hp : p.e0Pending = false) :
    ∃ r, feed d p (KeyAction.down k d).bytes =
        (⟨after p.modifiers true k, false⟩, r) ∧
      ((∃ ev, r = [ev] ∧ ev.modifiers = after p.modifiers true k) ∨
        r = [] ∧ d = true ∧ k.e0 = false ∧ k.code = 0x20 ∧
          after p.modifiers true k .ctrl = true) := by
  obtain ⟨hcode, hpressed, h0, h1⟩ := makeCode_bits k.code
  obtain ⟨r, hr, hcases⟩ := feed_key hp hcode hpressed h0 h1
  exact ⟨r, hr, hcases.imp_right fun h => ⟨h.1, h.2.2⟩⟩

theorem feed_up (hp : p.e0Pending = false) :
    ∃ ev, feed false p (KeyAction.up k).bytes = (⟨after p.modifiers false k, false⟩, [ev]) ∧
      ev.modifiers = after p.modifiers false k := by
  obtain ⟨hcode, hpressed, h0, h1⟩ := breakCode_bits k.code
  obtain ⟨r, hr, ⟨ev, rfl, hev⟩ | ⟨-, hfalse, -⟩⟩ :=
    feed_key (k := k) (p := p) (d := false) hp hcode hpressed (h0 k.valid.1) (h1 k.valid.2)
  · exact ⟨ev, hr, hev⟩
  · cases hfalse

variable {m : Mod} {pressed : Bool}

theorem Key.isLock_mod (h : k.mod = some m) : m.isLock = false := by
  unfold Key.mod modOf at h
  split at h <;> [skip; split at h <;> [skip; split at h]] <;> cases h <;> rfl

theorem Key.isLock_lock (h : k.lock = some m) : m.isLock = true := by
  unfold Key.lock lockOf at h
  split at h <;> [skip; split at h <;> [skip; split at h <;> [skip; split at h]]] <;> cases h <;>
    rfl

theorem setMod_apply (o : Option Mod) :
    setMod mods pressed o m = if o = some m then pressed else mods m := by
  cases o with
  | none => rfl
  | some n => simp [setMod, Function.update_apply, eq_comm]

theorem toggle_apply (o : Option Mod) :
    toggle mods pressed o m = if pressed = true ∧ o = some m then !mods m else mods m := by
  cases o with
  | none => simp [toggle]
  | some n =>
    by_cases hn : n = m
    · subst hn
      cases pressed <;> simp [toggle]
    · cases pressed <;> simp [toggle, hn, Function.update_of_ne (Ne.symm hn)]

theorem after_lock (hm : m.isLock = true) :
    after mods pressed k m = if pressed = true ∧ k.lock = some m then !mods m else mods m := by
  have hne : k.mod ≠ some m := fun h => by simp [k.isLock_mod h] at hm
  rw [after, toggle_apply, setMod_apply, if_neg hne]

theorem after_mod (hm : m.isLock = false) :
    after mods pressed k m = if k.mod = some m then pressed else mods m := by
  have hne : k.lock ≠ some m := fun h => by simp [k.isLock_lock h] at hm
  rw [after, toggle_apply, if_neg fun h => hne h.2, setMod_apply]

theorem expects_lock (hm : m.isLock = true) : kb.Expects m ↔ kb.odd m = true := by
  rw [Held.Expects, if_pos hm]

theorem expects_mod (hm : m.isLock = false) :
    kb.Expects m ↔ ∃ k, kb.held k = true ∧ k.mod = some m := by
  simp [Held.Expects, hm]

theorem exists_held_update {b : Bool} (hk : k.mod ≠ some m) :
    (∃ k', Function.update kb.held k b k' = true ∧ k'.mod = some m) ↔
      ∃ k', kb.held k' = true ∧ k'.mod = some m := by
  refine exists_congr fun k' => and_congr_left fun hk' => ?_
  have hne : k' ≠ k := fun h => hk (h ▸ hk')
  rw [Function.update_of_ne hne]

theorem agrees_down_iff (h : kb.Agrees mods) :
    (kb.act (.down k d)).Agrees (after mods true k) ↔
      (k.lock ≠ none → kb.held k = false) := by
  constructor
  · intro hagrees hlock
    obtain ⟨m, hm⟩ := Option.ne_none_iff_exists'.mp hlock
    by_contra hheld
    -- a repeated lock key flips the bit, and its number of presses is the same
    have hflip := hagrees m
    rw [after_lock (k.isLock_lock hm), if_pos ⟨rfl, hm⟩, expects_lock (k.isLock_lock hm)] at hflip
    have hold := h m
    rw [expects_lock (k.isLock_lock hm)] at hold
    simp only [Held.act, Bool.not_eq_false _ ▸ hheld, if_true] at hflip
    rw [← hold] at hflip
    cases hmods : mods m <;> simp [hmods] at hflip
  · intro hlock m
    have hold := h m
    cases hm : m.isLock with
    | true =>
      rw [expects_lock hm] at hold
      rw [after_lock hm, expects_lock hm]
      by_cases hk : k.lock = some m
      · have hheld := hlock (by simp [hk])
        have hodd : (kb.act (.down k d)).odd m = !kb.odd m := by
          simp [Held.act, hheld, toggle_apply, hk]
        rw [if_pos ⟨rfl, hk⟩, hodd, Bool.eq_iff_iff.mpr hold]
      · have hodd : (kb.act (.down k d)).odd m = kb.odd m := by
          simp only [Held.act]
          split
          · rfl
          · rw [toggle_apply, if_neg fun h => hk h.2]
        rw [if_neg fun h => hk h.2, hodd, hold]
    | false =>
      rw [expects_mod hm] at hold
      rw [after_mod hm, expects_mod hm]
      split
      · next hk => exact ⟨fun _ => ⟨k, Function.update_self .., hk⟩, fun _ => rfl⟩
      · next hk => exact hold.trans (exists_held_update hk).symm

theorem agrees_up_iff (h : kb.Agrees mods) :
    (kb.act (.up k)).Agrees (after mods false k) ↔
      (k.mod ≠ none → ∀ k', k' ≠ k → kb.held k' = true → k'.mod ≠ k.mod) := by
  constructor
  · intro hagrees hmod k' hne hheld heq
    obtain ⟨m, hm⟩ := Option.ne_none_iff_exists'.mp hmod
    have hclear := hagrees m
    rw [after_mod (k.isLock_mod hm), if_pos hm, expects_mod (k.isLock_mod hm)] at hclear
    have hfalse := hclear.mpr ⟨k', by simp [Held.act, Function.update_of_ne hne, hheld],
      heq.trans hm⟩
    cases hfalse
  · intro hother m
    have hold := h m
    cases hm : m.isLock with
    | true =>
      rw [expects_lock hm] at hold
      rw [after_lock hm, if_neg (by simp), expects_lock hm]
      exact hold
    | false =>
      rw [expects_mod hm] at hold
      rw [after_mod hm, expects_mod hm]
      split
      · next hk =>
        refine ⟨fun h => (nomatch h), ?_⟩
        rintro ⟨k', hheld, hk'⟩
        by_cases hne : k' = k
        · simp [Held.act, hne] at hheld
        · simp only [Held.act, Function.update_of_ne hne] at hheld
          exact absurd (hk'.trans hk.symm) (hother (by simp [hk]) k' hne hheld)
      · next hk => exact hold.trans (exists_held_update hk).symm

theorem feed_append (xs ys : List UInt8) :
    feed d p (xs ++ ys) =
      ((feed d (feed d p xs).1 ys).1,
        (feed d p xs).2 ++ (feed d (feed d p xs).1 ys).2) := by
  induction xs generalizing p with
  | nil => rfl
  | cons x xs ih => simp [feed, ih]

def lctrl : Key := ⟨false, 0x1D, by decide⟩

def numlock : Key := ⟨false, 0x45, by decide⟩

theorem pause_flips (kb : Held) (hp : p.e0Pending = false) :
    ∃ ev ∈ events (kb, p) .pause, ev.modifiers .numlock = !p.modifiers .numlock := by
  obtain ⟨r₁, h₁, -⟩ := feed_down (k := lctrl) (p := p) (d := false) hp
  obtain ⟨r₂, h₂, hr₂⟩ := feed_down (k := numlock) (d := false)
    (p := ⟨after p.modifiers true lctrl, false⟩) rfl
  have hfirst : feed false p [0xE1] = (p, []) := by
    simp [feed, handleScancode, ← hp]
  have hbytes : KeyAction.pause.bytes = [0xE1] ++ ((KeyAction.down lctrl false).bytes ++
      ((KeyAction.down numlock false).bytes ++ [0xE1, 0x9D, 0xC5])) := by decide
  rcases hr₂ with ⟨ev, rfl, hev⟩ | ⟨-, hfalse, -⟩
  · refine ⟨ev, ?_, ?_⟩
    · simp only [events, KeyAction.ddb, hbytes, feed_append, hfirst, h₁, h₂]
      simp
    · have hctrl : after p.modifiers true lctrl .numlock = p.modifiers .numlock :=
        (after_lock rfl).trans (if_neg (by decide))
      rw [hev, after_lock rfl, if_pos ⟨rfl, rfl⟩]
      exact congrArg not hctrl
  · cases hfalse

end

def Inv (s : System) : Prop := s.1.Agrees s.2.modifiers ∧ s.2.e0Pending = false

theorem follows_iff_simple {s : System} (hs : Inv s) (a : KeyAction) :
    (Follows s a ↔ Simple s a) ∧ ∀ s', step s a = some s' → Simple s a → Inv s' := by
  obtain ⟨kb, p⟩ := s
  obtain ⟨hagrees, hp⟩ : kb.Agrees p.modifiers ∧ p.e0Pending = false := hs
  cases a with
  | down k ddbBreak =>
    have hiff := agrees_down_iff (k := k) (d := ddbBreak) hagrees
    obtain ⟨r, hr, hcases⟩ := feed_down (k := k) (d := ddbBreak) hp
    have hevents : events (kb, p) (.down k ddbBreak) = r := congrArg Prod.snd hr
    refine ⟨?_, fun s' hs' hsimple => ?_⟩
    · rw [Follows, hevents]
      rcases hcases with ⟨ev, rfl, hev⟩ | ⟨rfl, rfl, he0, hcode, hctrl⟩
      · simp only [List.mem_singleton, forall_eq, hev]
        exact ⟨fun h => hiff.mp h.1, fun h => ⟨hiff.mpr h, fun _ => .inl rfl⟩⟩
      · have hlock : k.lock = none := by simp [Key.lock, lockOf, he0, hcode]
        have hsimple : k.lock ≠ none → kb.held k = false := fun h => absurd hlock h
        refine ⟨fun _ => hsimple, fun _ => ⟨by simp, fun _ => .inr ⟨rfl, k, rfl, he0, hcode, ?_⟩⟩⟩
        exact (hiff.mpr hsimple .ctrl).mp hctrl
    · cases hs'
      exact ⟨by simpa [KeyAction.ddb, hr] using hiff.mpr hsimple, congrArg (·.1.e0Pending) hr⟩
  | up k =>
    have hiff := agrees_up_iff (k := k) hagrees
    obtain ⟨ev, hr, hev⟩ := feed_up (k := k) hp
    have hevents : events (kb, p) (.up k) = [ev] := congrArg Prod.snd hr
    refine ⟨?_, fun s' hs' hsimple => ?_⟩
    · rw [Follows, hevents]
      simp only [List.mem_singleton, forall_eq, hev]
      exact ⟨fun h => hiff.mp h.1, fun h => ⟨hiff.mpr h, fun _ => .inl rfl⟩⟩
    · cases hs'
      exact ⟨by simpa [KeyAction.ddb, hr] using hiff.mpr hsimple, congrArg (·.1.e0Pending) hr⟩
  | pause =>
    refine ⟨⟨fun hfollows => ?_, False.elim⟩, fun _ _ => False.elim⟩
    obtain ⟨ev, hmem, hev⟩ := pause_flips kb hp
    have hbit := hfollows.1 ev hmem .numlock
    rw [hev, Held.act, ← hagrees .numlock] at hbit
    cases hnum : p.modifiers .numlock <;> simp [hnum] at hbit

theorem inv_init : Inv init := by
  refine ⟨fun m => ?_, rfl⟩
  cases hm : m.isLock with
  | true => simp [init, expects_lock hm]
  | false => simp [init, expects_mod hm]

/-- The events follow the keys along a run exactly if every code of it is a simple one. -/
theorem keyboard_follows_iff (codes : List KeyAction) :
    StepsMeet step Follows init codes ↔ StepsMeet step Simple init codes := by
  have hrun : ∀ s, Inv s → (StepsMeet step Follows s codes ↔ StepsMeet step Simple s codes) := by
    induction codes with
    | nil => exact fun _ _ => Iff.rfl
    | cons a codes ih =>
      intro s hs
      obtain ⟨hiff, hnext⟩ := follows_iff_simple hs a
      constructor
      · rintro ⟨hfollows, hrest⟩
        have hsimple := hiff.mp hfollows
        exact ⟨hsimple, fun s' hs' => (ih s' (hnext s' hs' hsimple)).mp (hrest s' hs')⟩
      · rintro ⟨hsimple, hrest⟩
        exact ⟨hiff.mpr hsimple, fun s' hs' => (ih s' (hnext s' hs' hsimple)).mpr (hrest s' hs')⟩
  exact hrun init inv_init

def lshift : Key := ⟨false, 0x2A, by decide⟩

def rshift : Key := ⟨false, 0x36, by decide⟩

def capslock : Key := ⟨false, 0x3A, by decide⟩

/-- Both shift keys and the left one goes up; caps lock is held; Pause. -/
theorem keyboard_misled :
    ¬StepsMeet step Follows init [.down lshift false, .down rshift false, .up lshift] ∧
      ¬StepsMeet step Follows init [.down capslock false, .down capslock false] ∧
        ¬StepsMeet step Follows init [.pause] := by
  refine ⟨fun h => ?_, fun h => ?_, fun h => ?_⟩
  · have hinv₁ := (follows_iff_simple inv_init (.down lshift false)).2 _ rfl fun _ => rfl
    have hinv₂ := (follows_iff_simple hinv₁ (.down rshift false)).2 _ rfl
      fun hlock => absurd (by decide) hlock
    have hup := (follows_iff_simple hinv₂ (.up lshift)).1.mp ((h.2 _ rfl).2 _ rfl).1
    exact absurd rfl (hup (by decide) rshift (by decide) (by decide))
  · have hinv₁ := (follows_iff_simple inv_init (.down capslock false)).2 _ rfl fun _ => rfl
    have hdown := (follows_iff_simple hinv₁ (.down capslock false)).1.mp (h.2 _ rfl).1
    exact absurd (hdown (by decide)) (by decide)
  · exact (follows_iff_simple inv_init .pause).1.mp h.1

end Uros.Char.Keyboard
