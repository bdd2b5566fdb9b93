import Uros.Exec.Stack

/-!
What a new task finds on its stack.

The server builds the stack of the strings before the first empty one of each vector, so
the caller's vectors survive exactly when they hold no empty string.
-/

namespace Uros.Exec

open Uros.Foundation

def InStack (a n : Nat) : Prop := stackVa ≤ a ∧ a + n ≤ stackTop

namespace Stack

def word (s : Stack) (a : Nat) : Nat := leNat (slice s.mem a 4)

def StringAt (s : Stack) (a : Nat) (str : CString) : Prop :=
  InStack a (str.1.length + 1) ∧ slice s.mem a (str.1.length + 1) = str.1 ++ [0]

structure Carries (s : Stack) (argv envp : List CString) (hints : Option AuxvHints) : Prop where
  inside : InStack s.top (headerSize argv.length envp.length hints)
  argc : s.word s.top = argv.length
  args : ∀ i (h : i < argv.length), s.StringAt (s.word (s.top + 4 * (1 + i))) argv[i]
  argsEnd : s.word (s.top + 4 * (1 + argv.length)) = 0
  env : ∀ j (h : j < envp.length),
    s.StringAt (s.word (s.top + 4 * (2 + argv.length + j))) envp[j]
  envEnd : s.word (s.top + 4 * (2 + argv.length + envp.length)) = 0
  aux : ∃ randomVa, InStack randomVa randomLen ∧ ∀ k w,
    (auxvWords (auxv hints randomVa))[k]? = some w →
      s.word (s.top + 4 * (3 + argv.length + envp.length + k)) = w

end Stack

theorem wordBytes_append (ws ws' : List Nat) :
    wordBytes (ws ++ ws') = wordBytes ws ++ wordBytes ws' := List.flatMap_append

theorem Stack.word_eq {s : Stack} {a w : Nat} (h : Holds s.mem a (leBytes 4 w))
    (hw : w < 2 ^ 32) : s.word a = w := by
  have hslice := h.slice_eq
  rw [length_leBytes] at hslice
  rw [Stack.word, hslice, leNat_leBytes (by omega)]

theorem Stack.word_eq_of_holds {s : Stack} {a w i : Nat} {ws : List Nat}
    (h : Holds s.mem a (wordBytes ws)) (hi : ws[i]? = some w) (hw : w < 2 ^ 32) :
    s.word (a + 4 * i) = w := by
  induction ws generalizing a i with
  | nil => simp at hi
  | cons v ws ih =>
    have hsplit : wordBytes (v :: ws) = leBytes 4 v ++ wordBytes ws := rfl
    rw [hsplit, holds_append, length_leBytes] at h
    cases i with
    | zero =>
      simp only [List.getElem?_cons_zero, Option.some.injEq] at hi
      exact s.word_eq (hi ▸ h.1) hw
    | succ i =>
      have hrest := ih h.2 (by simpa using hi)
      rwa [show a + 4 + 4 * i = a + 4 * (i + 1) by omega] at hrest

theorem holds_of_addresses {mem : Nat → UInt8} {va i a : Nat} {vec : List CString}
    (h : Holds mem va (strings vec)) (hi : i < vec.length)
    (ha : (addresses va vec)[i]? = some a) :
    Holds mem a (vec[i].1 ++ [0]) ∧ va ≤ a ∧
      a + (vec[i].1.length + 1) ≤ va + (strings vec).length := by
  induction vec generalizing va i with
  | nil => simp at hi
  | cons s vec ih =>
    rw [strings_cons, holds_append] at h
    have hlen : (strings (s :: vec)).length = s.1.length + 1 + (strings vec).length := by
      rw [strings_cons, List.length_append, List.length_append, List.length_singleton]
    cases i with
    | zero =>
      simp only [addresses, List.getElem?_cons_zero, Option.some.injEq] at ha
      subst ha
      exact ⟨h.1, Nat.le_refl _, by rw [hlen, List.getElem_cons_zero]; omega⟩
    | succ i =>
      rw [List.length_append, List.length_singleton] at h
      obtain ⟨hheld, hle, hend⟩ := ih h.2 (by simpa using hi) (by simpa [addresses] using ha)
      refine ⟨hheld, by omega, ?_⟩
      rw [hlen, List.getElem_cons_succ]
      omega

theorem exists_address (va : Nat) {i : Nat} {vec : List CString} (hi : i < vec.length) :
    ∃ a, (addresses va vec)[i]? = some a :=
  ⟨_, List.getElem?_eq_getElem (by rw [length_addresses]; exact hi)⟩

theorem Stack.stringAt {s : Stack} {a va i : Nat} {vec : List CString}
    (hwords : Holds s.mem a (wordBytes (addresses va vec)))
    (hstrings : Holds s.mem va (strings vec)) (hlow : stackVa ≤ va)
    (hhigh : va + (strings vec).length ≤ stackTop) (hi : i < vec.length) :
    s.StringAt (s.word (a + 4 * i)) vec[i] := by
  obtain ⟨b, hb⟩ := exists_address va hi
  obtain ⟨hheld, hle, hend⟩ := holds_of_addresses hstrings hi hb
  have hsmall : b < 2 ^ 32 := by
    have htop : stackTop < 2 ^ 32 := by decide
    omega
  rw [s.word_eq_of_holds hwords hb hsmall]
  refine ⟨⟨by omega, by omega⟩, ?_⟩
  have hslice := hheld.slice_eq
  rwa [List.length_append, List.length_singleton] at hslice

theorem auxvWords_lt {hints : Option AuxvHints} {randomVa k w : Nat} (hrandom : randomVa < 2 ^ 32)
    (hw : (auxvWords (auxv hints randomVa))[k]? = some w) : w < 2 ^ 32 := by
  have hmem := List.mem_of_getElem? hw
  simp only [auxvWords, List.mem_flatMap, List.mem_cons, List.not_mem_nil, or_false] at hmem
  obtain ⟨⟨tag, value⟩, hpair, rfl | rfl⟩ := hmem
  · cases tag <;> simp [AuxTag.code]
  · simp only [auxv, List.mem_append, List.mem_cons, List.not_mem_nil, or_false,
      Prod.mk.injEq] at hpair
    obtain ((⟨-, rfl⟩ | ⟨-, rfl⟩) | hhint) | ⟨-, rfl⟩ := hpair
    · decide
    · exact hrandom
    · cases hints with
      | none => simp at hhint
      | some h =>
        simp only [Option.elim, hintPairs, List.mem_append, List.mem_ite_nil_right,
          List.mem_cons, List.not_mem_nil, or_false, Prod.mk.injEq] at hhint
        obtain ((⟨-, -, rfl⟩ | ⟨-, -, rfl⟩) | ⟨-, -, rfl⟩) |
          ⟨-, ⟨-, rfl⟩ | ⟨-, rfl⟩ | ⟨-, rfl⟩⟩ := hhint
        all_goals exact UInt32.toNat_lt _
    · decide

theorem carries_of_holds {s : Stack} {argv envp : List CString} {hints : Option AuxvHints}
    (hlow : stackVa ≤ s.top)
    (hhigh : s.top + headerSize argv.length envp.length hints + (strings argv).length
      + (strings envp).length + randomLen ≤ stackTop)
    (hwords : Holds s.mem s.top (wordBytes (headerWords argv envp hints
      (s.top + headerSize argv.length envp.length hints)
      (s.top + (headerSize argv.length envp.length hints + (strings argv).length
        + (strings envp).length)))))
    (hstrings : Holds s.mem (s.top + headerSize argv.length envp.length hints)
      (strings argv ++ strings envp)) : s.Carries argv envp hints := by
  have htop : stackTop < 2 ^ 32 := by decide
  have hsize : stackTop = stackVa + stackSize := rfl
  have hstack : stackSize < 2 ^ 15 := by decide
  generalize hheader : headerSize argv.length envp.length hints = header at *
  have hargc : argv.length ≤ header := by rw [← hheader, headerSize]; omega
  generalize hrandomVa : s.top + (header + (strings argv).length + (strings envp).length) =
    randomVa at hwords
  have hsplit : headerWords argv envp hints (s.top + header) randomVa =
      [argv.length] ++ (addresses (s.top + header) argv ++ ([0] ++
        (addresses (s.top + header + (strings argv).length) envp ++ ([0] ++
          auxvWords (auxv hints randomVa))))) := by
    simp [headerWords]
  rw [hsplit] at hwords
  simp only [wordBytes_append, holds_append, length_wordBytes, List.length_singleton,
    length_addresses] at hwords
  obtain ⟨hcount, hargv, hargvEnd, henvp, henvpEnd, hauxv⟩ := hwords
  obtain ⟨hargvStr, henvpStr⟩ := holds_append.mp hstrings
  refine ⟨⟨hlow, by omega⟩, ?_, ?_, ?_, ?_, ?_, randomVa, ⟨by omega, by omega⟩, ?_⟩
  · exact s.word_eq_of_holds (i := 0) hcount rfl (by omega)
  · intro i hi
    have hat := s.stringAt hargv hargvStr (by omega) (by omega) hi
    rwa [show s.top + 4 * 1 + 4 * i = s.top + 4 * (1 + i) by omega] at hat
  · have hat := s.word_eq_of_holds (i := 0) hargvEnd rfl (by decide)
    rwa [show s.top + 4 * 1 + 4 * argv.length + 4 * 0 = s.top + 4 * (1 + argv.length) by
      omega] at hat
  · intro j hj
    have hat := s.stringAt henvp henvpStr (by omega) (by omega) hj
    rwa [show s.top + 4 * 1 + 4 * argv.length + 4 * 1 + 4 * j =
      s.top + 4 * (2 + argv.length + j) by omega] at hat
  · have hat := s.word_eq_of_holds (i := 0) henvpEnd rfl (by decide)
    rwa [show s.top + 4 * 1 + 4 * argv.length + 4 * 1 + 4 * envp.length + 4 * 0 =
      s.top + 4 * (2 + argv.length + envp.length) by omega] at hat
  · intro k w hw
    have hat := s.word_eq_of_holds hauxv hw (auxvWords_lt (by omega) hw)
    rwa [show s.top + 4 * 1 + 4 * argv.length + 4 * 1 + 4 * envp.length + 4 * 1 + 4 * k =
      s.top + 4 * (3 + argv.length + envp.length + k) by omega] at hat

theorem execBuildStack_carries_leading {out : Outcomes} {newTask : UInt32} {argv envp : List CString}
    {hints : Option AuxvHints} {s : Stack}
    (h : execBuildStack out newTask (strings argv ++ [0]) (strings envp ++ [0]) hints = .ok s) :
    s.Carries (leading argv) (leading envp) hints := by
  unfold execBuildStack at h
  rw [blobCount_strings, blobCount_strings] at h
  obtain ⟨argvRest, hargvRest⟩ := serialised_eq argv
  obtain ⟨envpRest, henvpRest⟩ := serialised_eq envp
  rw [hargvRest, henvpRest] at h
  generalize leading argv = args at *
  generalize leading envp = env at *
  split at h
  · cases h
  simp only at h
  generalize htotal : (headerSize args.length env.length hints + (strings args).length
    + (strings env).length + randomLen + 15) / 16 * 16 = total at h
  split at h
  · cases h
  split at h
  · cases h
  split at h
  · cases h
  · next hfits _ _ =>
    simp only [Except.ok.injEq] at h
    subst h
    have htop : stackTop = stackVa + stackSize := rfl
    obtain ⟨hwords, hbytes⟩ := fillStack_holds newTask args env hints (stackTop - total)
      (0 :: argvRest) (0 :: envpRest)
    apply carries_of_holds
    · change stackVa ≤ stackTop - total
      omega
    · change stackTop - total + _ + _ + _ + _ ≤ stackTop
      omega
    · have hlen := length_headerWords args env hints
        (stackTop - total + headerSize args.length env.length hints)
        (stackTop - total + (headerSize args.length env.length hints + (strings args).length
          + (strings env).length))
      exact hwords.blit (by rw [length_wordBytes]; omega)
    · exact hbytes.blit (by rw [List.length_append]; omega)

theorem spawnStack_carries_leading {out : Outcomes} {newTask : UInt32} {argv envp : List CString}
    {hints : Option AuxvHints} {s : Stack}
    (h : spawnStack out newTask argv envp hints = .ok s) :
    s.Carries (leading argv) (leading envp) hints := by
  have hblob : ∀ n ∈ some blobMax, n = blobMax := by simp
  unfold spawnStack at h
  rw [serialiseBlob_eq hblob argv, serialiseBlob_eq hblob envp] at h
  split at h
  · split at h
    · next hargv henvp =>
      simp only [Option.ite_none_right_eq_some, Option.some.injEq] at hargv henvp
      obtain ⟨-, rfl⟩ := hargv
      obtain ⟨-, rfl⟩ := henvp
      exact execBuildStack_carries_leading h
    · cases h
  · cases h

theorem Stack.Carries.leading_length {s : Stack} {argv envp : List CString}
    {hints : Option AuxvHints} (h : s.Carries argv envp hints)
    (hbuilt : s.Carries (leading argv) (leading envp) hints) :
    (leading argv).length = argv.length ∧ (leading envp).length = envp.length := by
  have hargs : (leading argv).length = argv.length := by rw [← h.argc, hbuilt.argc]
  refine ⟨hargs, ?_⟩
  apply Nat.le_antisymm (leading_length_le envp)
  by_contra hshort
  -- the word after the last counted string is the terminator, no address of the region
  have hstring := (h.env (leading envp).length (by omega)).1
  have hend := hbuilt.envEnd
  rw [hargs] at hend
  rw [hend] at hstring
  exact absurd hstring.1 (by decide)

/-- A successful start hands the vectors of the caller on exactly when neither of them
holds an empty string. -/
theorem vectors_survive_iff (out : Outcomes) (newTask : UInt32) (argv envp : List CString)
    (hints : Option AuxvHints) (s : Stack)
    (h : spawnStack out newTask argv envp hints = .ok s) :
    s.Carries argv envp hints ↔ (∀ a ∈ argv, a.1 ≠ []) ∧ ∀ e ∈ envp, e.1 ≠ [] := by
  have hbuilt := spawnStack_carries_leading h
  constructor
  · intro hcarries
    obtain ⟨hargv, henvp⟩ := hcarries.leading_length hbuilt
    exact ⟨ne_nil_of_leading_length hargv, ne_nil_of_leading_length henvp⟩
  · rintro ⟨hargv, henvp⟩
    rwa [leading_eq_self hargv, leading_eq_self henvp] at hbuilt

def stringA : CString := ⟨[97], by decide⟩

def stringBC : CString := ⟨[98, 99], by decide⟩

def emptyString : CString := ⟨[], by decide⟩

theorem vectors_survive_iff_pair :
    ∃ s, spawnStack ⟨true, true, true⟩ 7 [stringA, stringBC] [stringBC, stringA, stringA] none =
        .ok s ∧
      s.Carries [stringA, stringBC] [stringBC, stringA, stringA] none :=
  ⟨_, rfl, (vectors_survive_iff ⟨true, true, true⟩ 7 [stringA, stringBC]
    [stringBC, stringA, stringA] none _ rfl).mpr (by decide)⟩

/-- The second argument is empty: the start succeeds and the new task counts one argument. -/
theorem empty_argument_lost :
    ∃ s, spawnStack ⟨true, true, true⟩ 7 [stringA, emptyString, stringA] [] none = .ok s ∧
      s.word s.top = 1 ∧ ¬ s.Carries [stringA, emptyString, stringA] [] none := by
  refine ⟨_, rfl, ?_, fun h => ?_⟩
  · decide +kernel
  · have hargc := h.argc
    revert hargc
    decide +kernel

end Uros.Exec
