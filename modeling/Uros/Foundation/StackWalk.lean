import Uros.Foundation.Forest

/-!
A depth-first walk over a linked left-child right-sibling structure with an
explicit stack of `cap` slots.

`Walker` collects what a loop of this shape is made of: how a node's record is
found, its two links, which records are passed over, and what is done at a node.
`Walker.run_forest` evaluates the loop on every structure that represents a
forest: it performs the action along `Forest.visit` and stops.
-/

namespace Uros.Foundation

variable {σ ε ν : Type*}

namespace Forest

variable (null : ν) (first next : ν → Option ν)

def Chain : Forest ν → Prop
  | nil => True
  | cons v _ siblings => next v = some (siblings.head null) ∧ siblings.Chain

def Linked : Forest ν → Prop
  | nil => True
  | cons v kids siblings =>
    first v = some (kids.head null) ∧ kids.Chain null next ∧ kids.Linked ∧
      siblings.Linked

variable {null first next} {first' next' : ν → Option ν} {F : Forest ν} {p c : ν}

theorem Chain.congr (h : ∀ v ∈ F.nodes, next' v = next v)
    (hF : F.Chain null next) : F.Chain null next' := by
  induction F with
  | nil => trivial
  | cons v kids siblings _ ihs =>
    simp only [nodes, List.mem_cons, List.mem_append] at h
    exact ⟨(h v (.inl rfl)).trans hF.1, ihs (fun w hw => h w (.inr (.inr hw))) hF.2⟩

theorem Linked.congr (hfirst : ∀ v ∈ F.nodes, first' v = first v)
    (hnext : ∀ v ∈ F.nodes, next' v = next v) (hF : F.Linked null first next) :
    F.Linked null first' next' := by
  induction F with
  | nil => trivial
  | cons v kids siblings ihk ihs =>
    simp only [nodes, List.mem_cons, List.mem_append] at hfirst hnext
    obtain ⟨hv, hchain, hk, hs⟩ := hF
    exact ⟨(hfirst v (.inl rfl)).trans hv,
      hchain.congr fun w hw => hnext w (.inr (.inl hw)),
      ihk (fun w hw => hfirst w (.inr (.inl hw)))
        (fun w hw => hnext w (.inr (.inl hw))) hk,
      ihs (fun w hw => hfirst w (.inr (.inr hw)))
        (fun w hw => hnext w (.inr (.inr hw))) hs⟩

variable [DecidableEq ν]

theorem Chain.addChild (hF : F.Chain null next) :
    (F.addChild p c).Chain null next := by
  induction F with
  | nil => trivial
  | cons v kids siblings _ ihs => exact ⟨by simpa using hF.1, ihs hF.2⟩

theorem Linked.addChild (hF : F.Linked null first next) (hc : c ∉ F.nodes)
    (hpc : p ≠ c) (hfirst_c : first' c = some null) (hfirst_p : first' p = some c)
    (hfirst : ∀ v, v ≠ c → v ≠ p → first' v = first v)
    (hnext_c : next' c = first p) (hnext : ∀ v, v ≠ c → next' v = next v) :
    (F.addChild p c).Linked null first' next' := by
  induction F with
  | nil => trivial
  | cons v kids siblings ihk ihs =>
    simp only [nodes, List.mem_cons, List.mem_append, not_or] at hc
    obtain ⟨hcv, hck, hcs⟩ := hc
    obtain ⟨hv, hchain, hk, hs⟩ := hF
    have hchain' : (kids.addChild p c).Chain null next' :=
      (hchain.congr fun w hw => hnext w fun h => hck (h ▸ hw)).addChild
    by_cases hvp : v = p
    · subst hvp
      simp only [Forest.addChild, if_true]
      refine ⟨hfirst_p, ⟨?_, hchain'⟩, ⟨?_, trivial, trivial, ihk hk hck⟩, ihs hs hcs⟩
      · rw [hnext_c, hv, head_addChild]
      · simpa [head] using hfirst_c
    · simp only [Forest.addChild, hvp, if_false]
      refine ⟨?_, hchain', ihk hk hck, ihs hs hcs⟩
      rw [hfirst v (Ne.symm hcv) hvp, hv, head_addChild]

theorem Linked.kidsOf {a : ν} {K : Forest ν} (hF : F.Linked null first next)
    (hK : F.kidsOf a = some K) :
    first a = some (K.head null) ∧ K.Chain null next ∧ K.Linked null first next := by
  induction F with
  | nil => simp [Forest.kidsOf] at hK
  | cons v kids siblings ihk ihs =>
    obtain ⟨hv, hchain, hk, hs⟩ := hF
    rcases kidsOf_cons hK with ⟨rfl, rfl⟩ | ⟨-, hKk⟩ | ⟨-, hKs⟩
    · exact ⟨hv, hchain, hk⟩
    · exact ihk hk hKk
    · exact ihs hs hKs

end Forest

structure Walker (σ ε ν : Type*) where
  find : σ → ν → Option ε
  first : ε → ν
  next : ε → ν
  null : ν
  cap : Nat
  skip : ε → Bool
  act : σ → ν → σ

namespace Walker

variable (w : Walker σ ε ν)

variable [DecidableEq ν] in
/-- Push `child` and the nodes that follow it, while there is room; a node that
cannot be found is pushed but not followed. -/
def pushChain (s : σ) : Nat → ν → List ν → List ν
  | 0, _, stack => stack
  | room + 1, child, stack =>
    if child = w.null then stack
    else
      match w.find s child with
      | none => child :: stack
      | some e => pushChain s room (w.next e) (child :: stack)

variable [DecidableEq ν] in
def run : Nat → σ → List ν → Option σ
  | _, s, [] => some s
  | 0, _, _ :: _ => none
  | fuel + 1, s, v :: stack =>
    match w.find s v with
    | none => run fuel s stack
    | some e =>
      if w.skip e then run fuel s stack
      else
        let s' := w.act s v
        run fuel s' (w.pushChain s' (w.cap - stack.length) (w.first e) stack)

def firstOf (s : σ) (v : ν) : Option ν := (w.find s v).map w.first

def nextOf (s : σ) (v : ν) : Option ν := (w.find s v).map w.next

def skipped (s : σ) (v : ν) : Bool := (w.find s v).any w.skip

structure Framed : Prop where
  first : ∀ s v u, w.firstOf (w.act s v) u = w.firstOf s u
  next : ∀ s v u, w.nextOf (w.act s v) u = w.nextOf s u
  skipped : ∀ s v u, u ≠ v → w.skipped (w.act s v) u = w.skipped s u

variable {w} {s : σ} {F : Forest ν} {stack : List ν}

theorem Framed.linked_act (hw : w.Framed) {v : ν}
    (hF : F.Linked w.null (w.firstOf s) (w.nextOf s)) :
    F.Linked w.null (w.firstOf (w.act s v)) (w.nextOf (w.act s v)) :=
  hF.congr (fun u _ => hw.first s v u) (fun u _ => hw.next s v u)

theorem Framed.linked_foldl (hw : w.Framed) (visited : List ν)
    (hF : F.Linked w.null (w.firstOf s) (w.nextOf s)) :
    F.Linked w.null (w.firstOf (visited.foldl w.act s))
      (w.nextOf (visited.foldl w.act s)) := by
  induction visited generalizing s with
  | nil => exact hF
  | cons v visited ih => exact ih (hw.linked_act hF)

theorem Framed.skipped_foldl (hw : w.Framed) (visited : List ν) {u : ν}
    (hu : u ∉ visited) :
    w.skipped (visited.foldl w.act s) u = w.skipped s u := by
  induction visited generalizing s with
  | nil => rfl
  | cons v visited ih =>
    simp only [List.mem_cons, not_or] at hu
    exact (ih hu.2).trans (hw.skipped s v u hu.1)

variable [DecidableEq ν]

theorem pushChain_chain (hF : F.Chain w.null (w.nextOf s)) (hnull : w.null ∉ F.nodes)
    (room : Nat) :
    w.pushChain s room (F.head w.null) stack = (F.roots.take room).reverse ++ stack := by
  induction F generalizing room stack with
  | nil => cases room <;> simp [pushChain, Forest.head, Forest.roots]
  | cons v kids siblings _ ihs =>
    simp only [Forest.nodes, List.mem_cons, List.mem_append, not_or] at hnull
    cases room with
    | zero => simp [pushChain]
    | succ room =>
      obtain ⟨e, he, hnext⟩ := Option.map_eq_some_iff.mp hF.1
      simp only [pushChain, Forest.head, Ne.symm hnull.1, if_false, he, hnext,
        Forest.roots, List.take_succ_cons, List.reverse_cons, List.append_assoc]
      exact ihs hF.2 hnull.2.2 room

/-- From a stack on which the roots of `F` have been pushed, the loop acts along
`visit` and comes back to the stack below them, within one step for each node. -/
theorem run_forest (hw : w.Framed) {skip : ν → Bool}
    (hF : F.Linked w.null (w.firstOf s) (w.nextOf s)) (hnull : w.null ∉ F.nodes)
    (hnd : F.nodes.Nodup) (hskip : ∀ u ∈ F.nodes, w.skipped s u = skip u)
    (stack : List ν) :
    ∃ steps ≤ F.nodes.length, ∀ fuel,
      w.run (fuel + steps) s
          ((F.roots.take (w.cap - stack.length)).reverse ++ stack) =
        w.run fuel ((F.visit w.cap skip stack.length).foldl w.act s) stack := by
  induction F generalizing s stack with
  | nil => exact ⟨0, by simp, fun fuel => by simp [Forest.roots, Forest.visit]⟩
  | cons v kids siblings ihk ihs =>
    by_cases hroom : stack.length < w.cap
    case neg =>
      have hfull : w.cap - stack.length = 0 := by omega
      exact ⟨0, by simp, fun fuel => by simp [Forest.visit, hroom, hfull]⟩
    simp only [Forest.nodes, List.mem_cons, List.mem_append, not_or] at hnull hskip
    simp only [Forest.nodes, List.nodup_cons, List.nodup_append, List.mem_append,
      not_or] at hnd
    obtain ⟨hv, hndk, hnds, hdisj⟩ := hnd
    obtain ⟨steps₁, hle₁, hrun₁⟩ := ihs hF.2.2.2 hnull.2.2 hnds
      (fun u hu => hskip u (.inr (.inr hu))) (v :: stack)
    have htake : w.cap - stack.length = (w.cap - (v :: stack).length) + 1 := by
      simp only [List.length_cons]
      omega
    have hsplit : ((Forest.cons v kids siblings).roots.take
        (w.cap - stack.length)).reverse ++ stack =
        (siblings.roots.take (w.cap - (v :: stack).length)).reverse ++ v :: stack := by
      rw [htake, Forest.roots, List.take_succ_cons]
      simp
    set visited := siblings.visit w.cap skip (stack.length + 1) with hvisited
    set s₁ := visited.foldl w.act s with hs₁
    have hlinked := hw.linked_foldl visited hF
    rw [← hs₁] at hlinked
    obtain ⟨e, he, hfirst⟩ := Option.map_eq_some_iff.mp hlinked.1
    have hunvisited : v ∉ visited := fun h => hv.2 (Forest.mem_nodes_of_mem_visit h)
    have hskip_v : w.skip e = skip v := by
      have h := hw.skipped_foldl (s := s) visited hunvisited
      rw [← hs₁, hskip v (.inl rfl)] at h
      simpa [skipped, he] using h
    by_cases hsk : skip v = true
    · refine ⟨steps₁ + 1, by simp [Forest.nodes]; omega, fun fuel => ?_⟩
      rw [hsplit, show fuel + (steps₁ + 1) = (fuel + 1) + steps₁ by omega, hrun₁]
      simp only [Forest.visit, hroom, if_true, hsk, List.append_nil,
        List.length_cons, ← hvisited, ← hs₁]
      simp [run, he, hskip_v, hsk]
    · have hkids : kids.Linked w.null (w.firstOf (w.act s₁ v)) (w.nextOf (w.act s₁ v)) :=
        (hw.linked_act hlinked).2.2.1
      have hsame : ∀ u ∈ kids.nodes, w.skipped (w.act s₁ v) u = skip u := by
        intro u hu
        rw [hw.skipped s₁ v u (fun h => hv.1 (h ▸ hu)), hs₁, hw.skipped_foldl visited,
          hskip u (.inr (.inl hu))]
        exact fun h => hdisj u hu u (Forest.mem_nodes_of_mem_visit h) rfl
      obtain ⟨steps₂, hle₂, hrun₂⟩ :=
        ihk hkids hnull.2.1 hndk hsame stack
      refine ⟨steps₂ + 1 + steps₁, by simp [Forest.nodes]; omega, fun fuel => ?_⟩
      rw [hsplit, show fuel + (steps₂ + 1 + steps₁) = (fuel + steps₂ + 1) + steps₁ by
        omega, hrun₁]
      simp only [Forest.visit, hroom, if_true, hsk, Bool.false_eq_true, if_false,
        List.foldl_append, List.foldl_cons, List.length_cons, ← hvisited, ← hs₁]
      rw [← hrun₂]
      simp only [run, he, hskip_v, hsk, Bool.false_eq_true, if_false]
      rw [hfirst, pushChain_chain (hw.linked_act hlinked).2.1 hnull.2.1]

end Walker

end Uros.Foundation
