import Mathlib.Data.List.Nodup
import Mathlib.Logic.Relation

/-!
Ordered forests in left-child right-sibling form, and the order in which a
depth-first walk with a stack of fixed capacity visits them.

A walk pushes the children of a node from first to last, so it visits the last
child's tree first, and a child that finds the stack full is dropped together
with everything below it.  `visit` is that order and `Fits` says that nothing is
dropped; `forall_mem_visit_iff` shows that `Fits` is exactly completeness.
-/

namespace Uros.Foundation

/-- `cons v kids siblings` is the node `v`, the forest below it, and the nodes
that follow it under the same parent. -/
inductive Forest (ν : Type*) where
  | nil
  | cons (v : ν) (kids siblings : Forest ν)
  deriving DecidableEq, Repr

namespace Forest

variable {ν : Type*}

def nodes : Forest ν → List ν
  | nil => []
  | cons v kids siblings => v :: (kids.nodes ++ siblings.nodes)

def roots : Forest ν → List ν
  | nil => []
  | cons v _ siblings => v :: siblings.roots

def head (null : ν) : Forest ν → ν
  | nil => null
  | cons v _ _ => v

@[simp] theorem head_nil {null : ν} : (nil : Forest ν).head null = null := rfl

@[simp] theorem head_cons {null v : ν} {kids siblings : Forest ν} :
    (cons v kids siblings).head null = v := rfl

/-- Nodes visited, in order, when the top-level nodes are pushed on a stack that
already holds `depth` of its `cap` slots.  A node that `skip` selects is popped
without being visited. -/
def visit (cap : Nat) (skip : ν → Bool) : Nat → Forest ν → List ν
  | _, nil => []
  | depth, cons v kids siblings =>
    if depth < cap then
      siblings.visit cap skip (depth + 1) ++
        (if skip v then [] else v :: kids.visit cap skip depth)
    else []

def Fits (cap : Nat) : Nat → Forest ν → Prop
  | _, nil => True
  | depth, cons _ kids siblings =>
    depth < cap ∧ siblings.Fits cap (depth + 1) ∧ kids.Fits cap depth

instance decidableFits (cap : Nat) :
    (depth : Nat) → (F : Forest ν) → Decidable (F.Fits cap depth)
  | _, nil => .isTrue trivial
  | depth, cons _ kids siblings =>
    have := decidableFits cap (depth + 1) siblings
    have := decidableFits cap depth kids
    inferInstanceAs (Decidable (_ ∧ _ ∧ _))

variable {cap depth : Nat} {skip : ν → Bool} {F : Forest ν}

theorem mem_nodes_of_mem_visit {v : ν} (h : v ∈ F.visit cap skip depth) :
    v ∈ F.nodes := by
  induction F generalizing depth with
  | nil => simp [visit] at h
  | cons w kids siblings ihk ihs =>
    simp only [visit] at h
    split at h
    · simp only [List.mem_append] at h
      obtain h | h := h
      · simp [nodes, ihs h]
      · split at h
        · simp at h
        · obtain rfl | h := List.mem_cons.mp h
          · simp [nodes]
          · simp [nodes, ihk h]
    · simp at h

theorem nodup_visit (hnd : F.nodes.Nodup) : (F.visit cap skip depth).Nodup := by
  induction F generalizing depth with
  | nil => simp [visit]
  | cons w kids siblings ihk ihs =>
    simp only [nodes, List.nodup_cons, List.nodup_append, List.mem_append] at hnd
    obtain ⟨hw, hk, hs, hdisj⟩ := hnd
    simp only [visit]
    split
    · refine List.Nodup.append (ihs hs) ?_ ?_
      · split
        · simp
        · exact List.nodup_cons.mpr
            ⟨fun h => hw (.inl (mem_nodes_of_mem_visit h)), ihk hk⟩
      · intro v hv hv'
        have hvs := mem_nodes_of_mem_visit hv
        split at hv'
        · simp at hv'
        · obtain rfl | hv' := List.mem_cons.mp hv'
          · exact hw (.inr hvs)
          · exact hdisj v (mem_nodes_of_mem_visit hv') v hvs rfl
    · simp

theorem forall_mem_visit_iff (hnd : F.nodes.Nodup) :
    (∀ v ∈ F.nodes, v ∈ F.visit cap (fun _ => false) depth) ↔ F.Fits cap depth := by
  induction F generalizing depth with
  | nil => simp [nodes, Fits]
  | cons w kids siblings ihk ihs =>
    simp only [nodes, List.nodup_cons, List.nodup_append, List.mem_append] at hnd
    obtain ⟨hw, hk, hs, hdisj⟩ := hnd
    rw [Fits, ← ihs hs, ← ihk hk]
    by_cases hroom : depth < cap
    · simp only [nodes, visit, hroom, if_true, List.mem_cons, List.mem_append,
        Bool.false_eq_true, if_false, true_and]
      constructor
      · intro h
        refine ⟨fun v hv => ?_, fun v hv => ?_⟩
        · obtain h | rfl | h := h v (.inr (.inr hv))
          · exact h
          · exact absurd (.inr hv) hw
          · exact absurd rfl (hdisj v (mem_nodes_of_mem_visit h) v hv)
        · obtain h | rfl | h := h v (.inr (.inl hv))
          · exact absurd rfl (hdisj v hv v (mem_nodes_of_mem_visit h))
          · exact absurd (.inl hv) hw
          · exact h
      · rintro ⟨hsib, hkid⟩ v (rfl | hv | hv)
        · exact .inr (.inl rfl)
        · exact .inr (.inr (hkid v hv))
        · exact .inl (hsib v hv)
    · simp only [hroom, false_and, iff_false]
      intro h
      simpa [visit, hroom] using h w (by simp [nodes])

def SkipClosed (skip : ν → Bool) : Forest ν → Prop
  | nil => True
  | cons v kids siblings =>
    (skip v = true → ∀ d ∈ kids.nodes, skip d = true) ∧
      kids.SkipClosed skip ∧ siblings.SkipClosed skip

theorem mem_visit_or_skip (hfits : F.Fits cap depth) (hclosed : F.SkipClosed skip)
    {v : ν} (hv : v ∈ F.nodes) : v ∈ F.visit cap skip depth ∨ skip v = true := by
  induction F generalizing depth with
  | nil => simp [nodes] at hv
  | cons w kids siblings ihk ihs =>
    obtain ⟨hroom, hfs, hfk⟩ := hfits
    obtain ⟨hw, hck, hcs⟩ := hclosed
    simp only [nodes, List.mem_cons, List.mem_append] at hv
    simp only [visit, hroom, if_true, List.mem_append]
    obtain rfl | hv | hv := hv
    · by_cases hskip : skip v <;> simp [hskip]
    · by_cases hskip : skip w
      · exact .inr (hw hskip v hv)
      · obtain h | h := ihk hfk hck hv
        · simp [hskip, h]
        · exact .inr h
    · obtain h | h := ihs hfs hcs hv
      · exact .inl (.inl h)
      · exact .inr h

variable [DecidableEq ν] {p c v : ν}

def addChild (p c : ν) : Forest ν → Forest ν
  | nil => nil
  | cons v kids siblings =>
    cons v
      (if v = p then cons c nil (kids.addChild p c) else kids.addChild p c)
      (siblings.addChild p c)

@[simp] theorem head_addChild (null : ν) :
    (F.addChild p c).head null = F.head null := by
  cases F <;> rfl

theorem addChild_of_not_mem (hp : p ∉ F.nodes) : F.addChild p c = F := by
  induction F with
  | nil => rfl
  | cons w kids siblings ihk ihs =>
    simp only [nodes, List.mem_cons, List.mem_append, not_or] at hp
    simp [addChild, ihk hp.2.1, ihs hp.2.2, Ne.symm hp.1]

theorem mem_nodes_addChild :
    v ∈ (F.addChild p c).nodes ↔ v ∈ F.nodes ∨ (v = c ∧ p ∈ F.nodes) := by
  induction F with
  | nil => simp [addChild, nodes]
  | cons w kids siblings ihk ihs =>
    by_cases hw : w = p
    · simp only [addChild, hw, if_true, nodes, List.nil_append, List.cons_append,
        List.mem_cons, List.mem_append, ihk, ihs]
      grind
    · simp only [addChild, hw, if_false, nodes, List.mem_cons, List.mem_append, ihk,
        ihs, Ne.symm hw, false_or]
      grind

theorem nodup_addChild (hnd : F.nodes.Nodup) (hc : c ∉ F.nodes) :
    (F.addChild p c).nodes.Nodup := by
  induction F with
  | nil => simp [addChild, nodes]
  | cons w kids siblings ihk ihs =>
    simp only [nodes, List.nodup_cons, List.nodup_append, List.mem_append] at hnd
    obtain ⟨hw, hk, hs, hdisj⟩ := hnd
    simp only [nodes, List.mem_cons, List.mem_append, not_or] at hc
    obtain ⟨hcw, hck, hcs⟩ := hc
    have ihk := ihk hk hck
    have ihs := ihs hs hcs
    by_cases hwp : w = p
    · subst hwp
      have hsib : siblings.addChild w c = siblings :=
        addChild_of_not_mem fun h => hw (.inr h)
      have hkid : kids.addChild w c = kids :=
        addChild_of_not_mem fun h => hw (.inl h)
      simp only [addChild, if_true, hsib, hkid, nodes, List.nil_append,
        List.cons_append, List.nodup_cons, List.mem_cons, List.mem_append,
        List.nodup_append, not_or]
      exact ⟨⟨Ne.symm hcw, fun h => hw (.inl h), fun h => hw (.inr h)⟩,
        ⟨hck, hcs⟩, hk, hs, hdisj⟩
    · simp only [addChild, hwp, if_false, nodes, List.nodup_cons, List.mem_append,
        List.nodup_append, mem_nodes_addChild]
      refine ⟨?_, ihk, ihs, ?_⟩
      · rintro ((h | ⟨h, -⟩) | (h | ⟨h, -⟩))
        · exact hw (.inl h)
        · exact hcw h.symm
        · exact hw (.inr h)
        · exact hcw h.symm
      · rintro a (ha | ⟨rfl, hpk⟩) b (hb | ⟨rfl, hps⟩) hab
        · exact hdisj a ha b hb hab
        · exact hck (hab ▸ ha)
        · exact hcs (hab ▸ hb)
        · exact hdisj p hpk p hps rfl

theorem length_addChild :
    (F.addChild p c).nodes.length = F.nodes.length + F.nodes.count p := by
  induction F with
  | nil => rfl
  | cons w kids siblings ihk ihs =>
    by_cases hw : w = p
    · simp only [addChild, hw, if_true, nodes, List.nil_append, List.cons_append,
        List.length_cons, List.length_append, ihk, ihs, List.count_cons_self,
        List.count_append]
      omega
    · simp only [addChild, hw, if_false, nodes, List.length_cons, List.length_append, ihk,
        ihs, List.count_cons_of_ne hw, List.count_append]
      omega

def Parented (parent : ν → Option ν) (q : ν) : Forest ν → Prop
  | nil => True
  | cons v kids siblings =>
    parent v = some q ∧ kids.Parented parent v ∧ siblings.Parented parent q

def kidsOf (a : ν) : Forest ν → Option (Forest ν)
  | nil => none
  | cons v kids siblings =>
    if v = a then some kids else (kids.kidsOf a).orElse fun _ => siblings.kidsOf a

variable {parent parent' : ν → Option ν} {q a d : ν} {K : Forest ν}

omit [DecidableEq ν] in
theorem Parented.congr (h : ∀ v ∈ F.nodes, parent' v = parent v)
    (hF : F.Parented parent q) : F.Parented parent' q := by
  induction F generalizing q with
  | nil => trivial
  | cons v kids siblings ihk ihs =>
    simp only [nodes, List.mem_cons, List.mem_append] at h
    exact ⟨(h v (.inl rfl)).trans hF.1, ihk (fun w hw => h w (.inr (.inl hw))) hF.2.1,
      ihs (fun w hw => h w (.inr (.inr hw))) hF.2.2⟩

omit [DecidableEq ν] in
theorem Parented.inherited (hF : F.Parented parent q)
    (hinherit : ∀ p d, parent d = some p → skip p = true → skip d = true)
    (hq : skip q = true) : ∀ d ∈ F.nodes, skip d = true := by
  induction F generalizing q with
  | nil => simp [nodes]
  | cons v kids siblings ihk ihs =>
    obtain ⟨hv, hk, hs⟩ := hF
    have hskip : skip v = true := hinherit q v hv hq
    intro d hd
    simp only [nodes, List.mem_cons, List.mem_append] at hd
    rcases hd with rfl | hd | hd
    · exact hskip
    · exact ihk hk hskip d hd
    · exact ihs hs hq d hd

omit [DecidableEq ν] in
theorem Parented.skipClosed (hF : F.Parented parent q)
    (hinherit : ∀ p d, parent d = some p → skip p = true → skip d = true) :
    F.SkipClosed skip := by
  induction F generalizing q with
  | nil => trivial
  | cons v kids siblings ihk ihs =>
    obtain ⟨-, hk, hs⟩ := hF
    exact ⟨hk.inherited hinherit, ihk hk, ihs hs⟩

theorem Parented.addChild (hF : F.Parented parent q) (hc : parent c = some p) :
    (F.addChild p c).Parented parent q := by
  induction F generalizing q with
  | nil => trivial
  | cons v kids siblings ihk ihs =>
    obtain ⟨hv, hk, hs⟩ := hF
    by_cases hvp : v = p
    · subst hvp
      simp only [Forest.addChild, if_true]
      exact ⟨hv, ⟨hc, trivial, ihk hk⟩, ihs hs⟩
    · simp only [Forest.addChild, hvp, if_false]
      exact ⟨hv, ihk hk, ihs hs⟩

omit [DecidableEq ν] in
theorem Parented.parent_mem (hF : F.Parented parent q) (hd : d ∈ F.nodes)
    (hpd : parent d = some p) : p = q ∨ p ∈ F.nodes := by
  induction F generalizing q with
  | nil => simp [nodes] at hd
  | cons v kids siblings ihk ihs =>
    obtain ⟨hv, hk, hs⟩ := hF
    simp only [nodes, List.mem_cons, List.mem_append] at hd ⊢
    rcases hd with rfl | hd | hd
    · rw [hv] at hpd
      exact .inl (Option.some.inj hpd).symm
    · rcases ihk hk hd with rfl | h
      · exact .inr (.inl rfl)
      · exact .inr (.inr (.inl h))
    · rcases ihs hs hd with rfl | h
      · exact .inl rfl
      · exact .inr (.inr (.inr h))

theorem exists_kidsOf (ha : a ∈ F.nodes) : ∃ K, F.kidsOf a = some K := by
  induction F with
  | nil => simp [nodes] at ha
  | cons v kids siblings ihk ihs =>
    simp only [nodes, List.mem_cons, List.mem_append] at ha
    by_cases hv : v = a
    · exact ⟨kids, by simp [kidsOf, hv]⟩
    · cases hk : kids.kidsOf a with
      | some K => exact ⟨K, by simp [kidsOf, hv, hk]⟩
      | none =>
        rcases ha with rfl | ha | ha
        · exact absurd rfl hv
        · obtain ⟨K, hK⟩ := ihk ha
          simp [hK] at hk
        · obtain ⟨K, hK⟩ := ihs ha
          exact ⟨K, by simp [kidsOf, hv, hk, hK]⟩

theorem kidsOf_cons {v : ν} {kids siblings : Forest ν}
    (h : (cons v kids siblings).kidsOf a = some K) :
    (v = a ∧ K = kids) ∨ (v ≠ a ∧ kids.kidsOf a = some K) ∨
      (v ≠ a ∧ siblings.kidsOf a = some K) := by
  by_cases hv : v = a
  · simp only [kidsOf, hv, if_true, Option.some.injEq] at h
    exact .inl ⟨hv, h.symm⟩
  · simp only [kidsOf, hv, if_false] at h
    cases hk : kids.kidsOf a with
    | some K' =>
      simp only [hk, Option.orElse_some, Option.some.injEq] at h
      exact .inr (.inl ⟨hv, by rw [h]⟩)
    | none =>
      simp only [hk, Option.orElse_none] at h
      exact .inr (.inr ⟨hv, h⟩)

theorem sublist_of_kidsOf (h : F.kidsOf a = some K) :
    List.Sublist (a :: K.nodes) F.nodes := by
  induction F with
  | nil => simp [kidsOf] at h
  | cons v kids siblings ihk ihs =>
    rcases kidsOf_cons h with ⟨rfl, rfl⟩ | ⟨-, hk⟩ | ⟨-, hs⟩
    · exact (List.sublist_append_left _ _).cons_cons v
    · exact ((ihk hk).trans (List.sublist_append_left _ _)).trans (List.sublist_cons_self _ _)
    · exact ((ihs hs).trans (List.sublist_append_right _ _)).trans (List.sublist_cons_self _ _)

theorem Parented.kidsOf (hF : F.Parented parent q) (h : F.kidsOf a = some K) :
    K.Parented parent a := by
  induction F generalizing q with
  | nil => simp [Forest.kidsOf] at h
  | cons v kids siblings ihk ihs =>
    rcases kidsOf_cons h with ⟨rfl, rfl⟩ | ⟨-, hk⟩ | ⟨-, hs⟩
    · exact hF.2.1
    · exact ihk hF.2.1 hk
    · exact ihs hF.2.2 hs

theorem mem_kids_of_parent_mem (hF : F.Parented parent q) (hnd : F.nodes.Nodup)
    (hq : q ∉ F.nodes) (hK : F.kidsOf a = some K) (hd : d ∈ F.nodes)
    (hpd : parent d = some p) (hp : p ∈ a :: K.nodes) : d ∈ K.nodes := by
  have hpF : p ∈ F.nodes := (sublist_of_kidsOf hK).subset hp
  induction F generalizing q with
  | nil => simp [nodes] at hd
  | cons v kids siblings ihk ihs =>
    have hne : p ≠ q := fun h => hq (h ▸ hpF)
    obtain ⟨hv, hk, hs⟩ := hF
    simp only [nodes, List.nodup_cons, List.nodup_append, List.mem_append, not_or] at hnd
    obtain ⟨⟨hvk, hvs⟩, hndk, hnds, hdisj⟩ := hnd
    simp only [nodes, List.mem_cons, List.mem_append, not_or] at hd hq
    -- The parent of a node under `siblings` is `q` or lies there as well.
    have hsib : d ∈ siblings.nodes → p ∈ siblings.nodes := fun h =>
      (hs.parent_mem h hpd).resolve_left hne
    have hroot : d ≠ v := by
      rintro rfl
      rw [hv] at hpd
      exact hne (Option.some.inj hpd).symm
    rcases kidsOf_cons hK with ⟨rfl, rfl⟩ | ⟨-, hKk⟩ | ⟨-, hKs⟩
    · rcases hd with hd | hd | hd
      · exact absurd hd hroot
      · exact hd
      · rcases List.mem_cons.mp hp with rfl | hp
        · exact absurd (hsib hd) hvs
        · exact absurd rfl (hdisj p hp p (hsib hd))
    · have hpk : p ∈ kids.nodes := (sublist_of_kidsOf hKk).subset hp
      rcases hd with hd | hd | hd
      · exact absurd hd hroot
      · exact ihk hk hndk hvk hKk hd hpk
      · exact absurd rfl (hdisj p hpk p (hsib hd))
    · have hps : p ∈ siblings.nodes := (sublist_of_kidsOf hKs).subset hp
      rcases hd with hd | hd | hd
      · exact absurd hd hroot
      · rcases hk.parent_mem hd hpd with rfl | hpk
        · exact absurd hps hvs
        · exact absurd rfl (hdisj p hpk p hps)
      · exact ihs hs hnds hq.2.2 hKs hd hps

omit [DecidableEq ν] in
theorem Parented.reachable (hK : K.Parented parent a)
    (hd : d ∈ K.nodes) : Relation.ReflTransGen (fun p d => parent d = some p) a d := by
  induction K generalizing a with
  | nil => simp [nodes] at hd
  | cons v kids siblings ihk ihs =>
    obtain ⟨hv, hk, hs⟩ := hK
    simp only [nodes, List.mem_cons, List.mem_append] at hd
    rcases hd with rfl | hd | hd
    · exact .single hv
    · exact .head hv (ihk hk hd)
    · exact ihs hs hd

theorem reachable_iff (hF : F.Parented parent q) (hnd : F.nodes.Nodup)
    (hq : q ∉ F.nodes) (hmem : ∀ d p, parent d = some p → d ∈ F.nodes)
    (hK : F.kidsOf a = some K) :
    Relation.ReflTransGen (fun p d => parent d = some p) a d ↔ d ∈ a :: K.nodes := by
  constructor
  · intro h
    induction h with
    | refl => simp
    | tail _ hpd ih =>
      exact List.mem_cons_of_mem _
        (mem_kids_of_parent_mem hF hnd hq hK (hmem _ _ hpd) hpd ih)
  · intro h
    rcases List.mem_cons.mp h with rfl | h
    · exact .refl
    · exact (hF.kidsOf hK).reachable h

end Forest

end Uros.Foundation
