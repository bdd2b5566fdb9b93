import Mathlib.Data.Finset.Card
import Mathlib.Data.Finset.Range
import Mathlib.Logic.Function.Basic

/-!
Open addressing with linear probing, and deletion that refills the hole.

A table has `n` positions; a position holds an item or `0`, which marks it as empty.  Every item
has a home position, and an item that does not find its home free is placed farther along, round
the end of the table.  `Probing` is the invariant a search rests on: from the home of an item to
the place where it is, no position is empty.  `refill` empties one position without breaking it.
-/

namespace Uros.Foundation

variable {n p q x z h : ℕ}

def nextPos (n p : ℕ) : ℕ := if p + 1 = n then 0 else p + 1

def gap (n p q : ℕ) : ℕ := if p ≤ q then q - p else q + n - p

/-- The first position from `p` on at which a loop stops; `none` when `fuel` steps do not reach
one. -/
def probe (n : ℕ) (stop : ℕ → Bool) : ℕ → ℕ → Option ℕ
  | 0, _ => none
  | fuel + 1, p => if stop p then some p else probe n stop fuel (nextPos n p)

theorem nextPos_lt (hp : p < n) : nextPos n p < n := by
  unfold nextPos
  split <;> omega

@[simp] theorem gap_self : gap n p p = 0 := by simp [gap]

theorem gap_lt (hp : p < n) (hq : q < n) : gap n p q < n := by
  unfold gap
  split <;> omega

theorem gap_nextPos (hp : p < n) (hq : q < n) (hne : q ≠ p) :
    gap n p q = gap n (nextPos n p) q + 1 := by
  unfold gap nextPos
  split_ifs <;> omega

theorem eq_of_gap_eq (hp : p < n) (hq : q < n) (hx : x < n) (heq : gap n p q = gap n p x) :
    q = x := by
  unfold gap at heq
  split_ifs at heq <;> omega

theorem gap_add (hp : p < n) (hq : q < n) (hx : x < n) (hle : gap n p q ≤ gap n p x) :
    gap n p q + gap n q x = gap n p x := by
  unfold gap at *
  split_ifs at * <;> omega

theorem probe_of_reach (stop : ℕ → Bool) {fuel : ℕ} (hp : p < n) (hz : z < n)
    (hstop : stop z = true) (hfuel : gap n p z < fuel) :
    ∃ q < n, probe n stop fuel p = some q ∧ stop q = true ∧
      ∀ x < n, gap n p x < gap n p q → stop x = false := by
  induction fuel generalizing p with
  | zero => omega
  | succ fuel ih =>
    unfold probe
    by_cases hhere : stop p = true
    · exact ⟨p, hp, if_pos hhere, hhere, fun x _ hx => by simp at hx⟩
    · have hne : z ≠ p := by
        rintro rfl
        exact hhere hstop
      have hgap := gap_nextPos hp hz hne
      obtain ⟨q, hq, heq, hsq, hbefore⟩ := ih (nextPos_lt hp) (by omega)
      have hqp : q ≠ p := by
        rintro rfl
        exact hhere hsq
      refine ⟨q, hq, by rw [if_neg hhere, heq], hsq, fun x hx hlt => ?_⟩
      by_cases hxp : x = p
      · exact hxp ▸ Bool.eq_false_iff.mpr hhere
      · have hgx := gap_nextPos hp hx hxp
        have hgq := gap_nextPos hp hq hqp
        exact hbefore x hx (by omega)

theorem probe_of_stop (stop : ℕ → Bool) (hp : p < n) (hz : z < n) (hstop : stop z = true) :
    ∃ q < n, probe n stop n p = some q ∧ stop q = true ∧
      ∀ x < n, gap n p x < gap n p q → stop x = false :=
  probe_of_reach stop hp hz hstop (gap_lt hp hz)

theorem probe_eq_some {stop : ℕ → Bool} (hp : p < n) (hq : q < n) (hstop : stop q = true)
    (hbefore : ∀ x < n, gap n p x < gap n p q → stop x = false) :
    probe n stop n p = some q := by
  obtain ⟨y, hy, heq, hsy, hfirst⟩ := probe_of_stop stop hp hq hstop
  rcases lt_trichotomy (gap n p y) (gap n p q) with hlt | hsame | hlt
  · rw [hbefore y hy hlt] at hsy
    cases hsy
  · rw [heq, eq_of_gap_eq hp hy hq hsame]
  · rw [hfirst q hq hlt] at hstop
    cases hstop

variable {α : Type*} [Zero α] {home : α → ℕ} {slot : ℕ → α} {a : α}

structure Probing (n : ℕ) (home : α → ℕ) (slot : ℕ → α) : Prop where
  chain : ∀ q < n, slot q ≠ 0 → ∀ x < n,
    gap n (home (slot q)) x < gap n (home (slot q)) q → slot x ≠ 0
  once : ∀ p < n, ∀ q < n, slot p ≠ 0 → slot p = slot q → p = q

/-- The same for a table in which position `h` is to become empty: what is written there is an
item only to the searches that pass over it. -/
structure Holed (n : ℕ) (home : α → ℕ) (slot : ℕ → α) (h : ℕ) : Prop where
  filled : slot h ≠ 0
  chain : ∀ q < n, q ≠ h → slot q ≠ 0 → ∀ x < n,
    gap n (home (slot q)) x < gap n (home (slot q)) q → slot x ≠ 0
  once : ∀ p < n, p ≠ h → ∀ q < n, q ≠ h → slot p ≠ 0 → slot p = slot q → p = q

theorem Probing.empty (hempty : ∀ q < n, slot q = 0) : Probing n home slot :=
  ⟨fun q hq hne => absurd (hempty q hq) hne, fun p hp _ _ hne => absurd (hempty p hp) hne⟩

theorem Probing.congr {home' : α → ℕ} (hinv : Probing n home slot)
    (hsame : ∀ q < n, slot q ≠ 0 → home' (slot q) = home (slot q)) :
    Probing n home' slot :=
  ⟨fun q hq hne x hx hlt => hinv.chain q hq hne x hx (hsame q hq hne ▸ hlt), hinv.once⟩

theorem Probing.insert (hinv : Probing n home slot) (hz : slot z = 0)
    (hbefore : ∀ x < n, gap n (home a) x < gap n (home a) z → slot x ≠ 0)
    (hnew : ∀ q < n, slot q ≠ a) (ha : a ≠ 0) : Probing n home (Function.update slot z a) := by
  have hkeep : ∀ x, slot x ≠ 0 → Function.update slot z a x ≠ 0 := fun x hx => by
    by_cases hxz : x = z
    · rwa [hxz, Function.update_self]
    · rwa [Function.update_of_ne hxz]
  constructor
  · intro q hq hne x hx hlt
    by_cases hqz : q = z
    · subst hqz
      rw [Function.update_self] at hlt
      exact hkeep x (hbefore x hx hlt)
    · rw [Function.update_of_ne hqz] at hne hlt
      exact hkeep x (hinv.chain q hq hne x hx hlt)
  · intro p hp q hq hne heq
    by_cases hpz : p = z <;> by_cases hqz : q = z
    · rw [hpz, hqz]
    · rw [hpz, Function.update_self, Function.update_of_ne hqz] at heq
      exact absurd heq.symm (hnew q hq)
    · rw [hqz, Function.update_self, Function.update_of_ne hpz] at heq
      exact absurd heq (hnew p hp)
    · rw [Function.update_of_ne hpz] at hne heq
      rw [Function.update_of_ne hqz] at heq
      exact hinv.once p hp q hq hne heq

theorem Probing.holed (hinv : Probing n home slot) (hh : slot h ≠ 0) : Holed n home slot h :=
  ⟨hh, fun q hq _ => hinv.chain q hq, fun p hp _ q hq _ => hinv.once p hp q hq⟩

theorem Holed.close (hinv : Holed n home slot h) (hhome : ∀ a, home a < n) (hh : h < n)
    {d : ℕ} (hd : d < n) (hempty : slot d = 0)
    (hnot : ∀ x < n, x ≠ h → gap n h x < gap n h d →
      slot x ≠ 0 ∧ gap n (home (slot x)) x ≤ gap n (home (slot x)) h) :
    Probing n home (Function.update slot h 0) := by
  constructor
  · intro q hq hne x hx hlt
    by_cases hqh : q = h
    · rw [hqh, Function.update_self] at hne
      exact absurd rfl hne
    rw [Function.update_of_ne hqh] at hne hlt
    have hxne := hinv.chain q hq hqh hne x hx hlt
    by_cases hxh : x = h
    · -- an item whose way leads over the hole lies before the empty position, so it was tested
      subst hxh
      have hway := gap_add (hhome (slot q)) hx hq hlt.le
      have hbefore : gap n x q < gap n x d := by
        by_contra hle
        have hdq := gap_add hx hd hq (not_lt.mp hle)
        have hhd : gap n (home (slot q)) x + gap n x d = gap n (home (slot q)) d := by
          have := gap_lt (hhome (slot q)) hq
          clear hnot
          unfold gap at *
          split_ifs at * <;> omega
        by_cases hdq0 : d = q
        · exact hne (hdq0 ▸ hempty)
        · have hpos : 0 < gap n d q := by
            unfold gap
            split_ifs <;> omega
          exact hinv.chain q hq hqh hne d hd (by omega) hempty
      have htest := (hnot q hq hqh hbefore).2
      omega
    · rwa [Function.update_of_ne hxh]
  · intro p hp q hq hne heq
    by_cases hph : p = h
    · rw [hph, Function.update_self] at hne
      exact absurd rfl hne
    rw [Function.update_of_ne hph] at hne heq
    by_cases hqh : q = h
    · rw [hqh, Function.update_self] at heq
      exact absurd heq hne
    rw [Function.update_of_ne hqh] at heq
    exact hinv.once p hp hph q hq hqh hne heq

theorem Holed.move (hinv : Holed n home slot h) {d : ℕ} (hd : d < n) (hdh : d ≠ h)
    (hne : slot d ≠ 0) (hdis : gap n (home (slot d)) h < gap n (home (slot d)) d) :
    Holed n home (Function.update slot h (slot d)) d := by
  have hkeep : ∀ x, slot x ≠ 0 → Function.update slot h (slot d) x ≠ 0 := fun x hx => by
    by_cases hxh : x = h
    · rwa [hxh, Function.update_self]
    · rwa [Function.update_of_ne hxh]
  refine ⟨hkeep d hne, ?_, ?_⟩
  · intro q hq hqd hqne x hx hlt
    apply hkeep
    by_cases hqh : q = h
    · rw [hqh, Function.update_self] at hlt
      exact hinv.chain d hd hdh hne x hx (by omega)
    · rw [Function.update_of_ne hqh] at hqne hlt
      exact hinv.chain q hq hqh hqne x hx hlt
  · intro p hp hpd q hq hqd hpne heq
    by_cases hph : p = h <;> by_cases hqh : q = h
    · rw [hph, hqh]
    · rw [hph, Function.update_self, Function.update_of_ne hqh] at heq
      exact absurd (hinv.once d hd hdh q hq hqh hne heq).symm hqd
    · rw [hqh, Function.update_self, Function.update_of_ne hph] at heq
      exact absurd (hinv.once d hd hdh p hp hph hne heq.symm).symm hpd
    · rw [Function.update_of_ne hph] at hpne heq
      rw [Function.update_of_ne hqh] at heq
      exact hinv.once p hp hph q hq hqh hpne heq

section Refill

variable [DecidableEq α] {shift : ℕ → ℕ → ℕ → Bool}

/-- Empties position `h`: the next item that `shift` lets move from its place, given the hole and
the item's home, goes into the hole and leaves a hole of its own, up to the first empty
position. -/
def refill (n : ℕ) (home : α → ℕ) (shift : ℕ → ℕ → ℕ → Bool) :
    ℕ → (ℕ → α) → ℕ → Option (ℕ → α)
  | 0, _, _ => none
  | fuel + 1, slot, h =>
    (probe n (fun d => slot d = 0 || shift h d (home (slot d))) n (nextPos n h)).bind fun d =>
      if slot d = 0 then some (Function.update slot h (slot d))
      else refill n home shift fuel (Function.update slot h (slot d)) d

def PicksDisplaced (n : ℕ) (shift : ℕ → ℕ → ℕ → Bool) : Prop :=
  ∀ h < n, ∀ d < n, ∀ t < n, d ≠ h → (shift h d t = true ↔ gap n t h < gap n t d)

theorem Holed.probe_next (hinv : Holed n home slot h) (hhome : ∀ a, home a < n)
    (hshift : PicksDisplaced n shift) (hh : h < n) (hz : z < n) (hempty : slot z = 0) :
    ∃ d < n, d ≠ h ∧
      probe n (fun d => slot d = 0 || shift h d (home (slot d))) n (nextPos n h) = some d ∧
      (slot d = 0 ∨ gap n (home (slot d)) h < gap n (home (slot d)) d) ∧
      (∀ x < n, x ≠ h → gap n h x < gap n h d →
        slot x ≠ 0 ∧ gap n (home (slot x)) x ≤ gap n (home (slot x)) h) ∧
      gap n h d ≤ gap n h z := by
  have hzh : z ≠ h := by
    rintro rfl
    exact hinv.filled hempty
  have hgz := gap_nextPos hh hz hzh
  obtain ⟨d, hd, heq, hstop, hbefore⟩ :=
    probe_of_stop (fun d => slot d = 0 || shift h d (home (slot d)))
      (nextPos_lt hh) hz (by simp [hempty])
  have hdh : d ≠ h := by
    -- the hole itself is the last position of the round, and `z` comes before it
    rintro rfl
    have hlast : gap n (nextPos n d) z < gap n (nextPos n d) d := by
      unfold gap nextPos
      split_ifs <;> omega
    simpa [hempty] using hbefore z hz hlast
  have hgd := gap_nextPos hh hd hdh
  have hnot : ∀ x < n, x ≠ h → gap n h x < gap n h d →
      slot x ≠ 0 ∧ gap n (home (slot x)) x ≤ gap n (home (slot x)) h := fun x hx hxh hlt => by
    have hgx := gap_nextPos hh hx hxh
    have htest : slot x ≠ 0 ∧ shift h x (home (slot x)) = false := by
      simpa using hbefore x hx (by omega)
    refine ⟨htest.1, not_lt.mp fun hdis => ?_⟩
    rw [(hshift h hh x hx _ (hhome _) hxh).mpr hdis] at htest
    exact Bool.noConfusion htest.2
  refine ⟨d, hd, hdh, heq, ?_, hnot, ?_⟩
  · rw [← hshift h hh d hd _ (hhome _) hdh]
    simpa using hstop
  · by_contra hlt
    exact (hnot z hz hzh (by omega)).1 hempty

theorem Holed.refill (hinv : Holed n home slot h) (hhome : ∀ a, home a < n)
    (hshift : PicksDisplaced n shift) {fuel : ℕ} (hh : h < n) (hz : z < n) (hempty : slot z = 0)
    (hfuel : gap n h z < fuel) :
    ∃ slot', refill n home shift fuel slot h = some slot' ∧ Probing n home slot' ∧
      ∀ a ≠ 0, (∃ q < n, slot' q = a) ↔ ∃ q < n, q ≠ h ∧ slot q = a := by
  induction fuel generalizing slot h with
  | zero => omega
  | succ fuel ih =>
    obtain ⟨d, hd, hdh, heq, hstop, hnot, hle⟩ := hinv.probe_next hhome hshift hh hz hempty
    unfold Foundation.refill
    rw [heq, Option.bind_some]
    by_cases h0 : slot d = 0
    · rw [if_pos h0, h0]
      refine ⟨_, rfl, hinv.close hhome hh hd h0 hnot, fun a ha => ?_⟩
      constructor
      · rintro ⟨q, hq, hqa⟩
        by_cases hqh : q = h
        · rw [hqh, Function.update_self] at hqa
          exact absurd hqa.symm ha
        · exact ⟨q, hq, hqh, by rwa [Function.update_of_ne hqh] at hqa⟩
      · rintro ⟨q, hq, hqh, hqa⟩
        exact ⟨q, hq, by rwa [Function.update_of_ne hqh]⟩
    · rw [if_neg h0]
      have hdis := hstop.resolve_left h0
      have hzh : z ≠ h := by
        rintro rfl
        exact hinv.filled hempty
      have hgap := gap_add hh hd hz hle
      have hpos : 0 < gap n h d := by
        unfold gap
        split_ifs <;> omega
      obtain ⟨slot', hs, hprob, hitems⟩ :=
        ih (hinv.move hd hdh h0 hdis) hd
          (by rwa [Function.update_of_ne hzh]) (by omega)
      refine ⟨slot', hs, hprob, fun a ha => (hitems a ha).trans ?_⟩
      constructor
      · rintro ⟨q, hq, hqd, hqa⟩
        by_cases hqh : q = h
        · exact ⟨d, hd, hdh, by rwa [hqh, Function.update_self] at hqa⟩
        · exact ⟨q, hq, hqh, by rwa [Function.update_of_ne hqh] at hqa⟩
      · rintro ⟨q, hq, hqh, hqa⟩
        by_cases hqd : q = d
        · exact ⟨h, hh, Ne.symm hdh, by rw [Function.update_self, ← hqd, hqa]⟩
        · exact ⟨q, hq, hqd, by rwa [Function.update_of_ne hqh]⟩

end Refill

theorem exists_empty {slot : ℕ → ℕ} (hn : 0 < n) (hlt : ∀ q < n, slot q < n)
    (honce : ∀ p < n, ∀ q < n, slot p ≠ 0 → slot p = slot q → p = q) : ∃ z < n, slot z = 0 := by
  by_contra hnone
  have hfull : ∀ z < n, slot z ≠ 0 := fun z hz h0 => hnone ⟨z, hz, h0⟩
  have hmaps : ∀ z ∈ Finset.range n, slot z ∈ (Finset.range n).erase 0 := fun z hz => by
    have hzn := Finset.mem_range.mp hz
    exact Finset.mem_erase.mpr ⟨hfull z hzn, Finset.mem_range.mpr (hlt z hzn)⟩
  have hcard : ((Finset.range n).erase 0).card < (Finset.range n).card :=
    Finset.card_erase_lt_of_mem (Finset.mem_range.mpr hn)
  obtain ⟨p, hp, q, hq, hne, heq⟩ :=
    Finset.exists_ne_map_eq_of_card_lt_of_maps_to hcard hmaps
  have hp' := Finset.mem_range.mp hp
  exact hne (honce p hp' q (Finset.mem_range.mp hq) (hfull p hp') heq)

end Uros.Foundation
