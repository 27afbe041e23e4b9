import Mathlib

/-!
# A worklist over a tree

The inner nodes of a tree are named by the path that leads to them; `dirs` lists
the inner nodes below one, `files` the leaves. A worklist takes an inner node from
its top, notes its leaves and adds its inner nodes.

**Results.**
* `mem_explore`: the worklist notes the leaves of the tree, and nothing else.
* `nodup_explore`: each of them once, where no node has two names.
* `explore_ends`: it comes to an end in a tree of bounded depth.
-/
namespace Worklist

variable {α : Type}

section

variable (dirs files : List α → List α)

/-- An inner node of the tree. -/
inductive Reached : List α → Prop
  | root : Reached []
  | sub {d : List α} {n : α} (hd : Reached d) (hn : n ∈ dirs d) : Reached (d ++ [n])

/-- A leaf of the tree. -/
def Leaf (p : List α) : Prop := ∃ d n, p = d ++ [n] ∧ Reached dirs d ∧ n ∈ files d

/-- The worklist on top, the leaves noted so far. -/
def explore : Nat → List (List α) → List (List α) → Option (List (List α))
  | _, [], found => some found
  | 0, _ :: _, _ => none
  | fuel + 1, d :: stack, found =>
    explore fuel (((dirs d).map fun n => d ++ [n]).reverse ++ stack)
      (found ++ (files d).map fun n => d ++ [n])

/-- What the worklist holds and what it has noted: no leaf is lost, none is found twice. -/
structure Inv (stack found : List (List α)) : Prop where
  reached : ∀ d ∈ stack, Reached dirs d
  sound : ∀ p ∈ found, Leaf dirs files p
  complete : ∀ p, Leaf dirs files p → p ∈ found ∨ ∃ d ∈ stack, d <+: p ∧ d ≠ p

/-- The worklist and the leaves noted do not overlap. -/
structure Apart (stack found : List (List α)) : Prop where
  separate : stack.Pairwise fun a b => ¬ a <+: b ∧ ¬ b <+: a
  below : ∀ p ∈ found, ∀ d ∈ stack, ¬ d <+: p
  nodup : found.Nodup

end

variable {dirs files : List α → List α} {stack found out : List (List α)} {d p r : List α} {n m : α}

theorem Reached.mid (h : Reached dirs p) (hp : p = d ++ m :: r) : m ∈ dirs d := by
  induction h generalizing r with
  | root => simp at hp
  | @sub e n he hn ih =>
    rcases List.eq_nil_or_concat r with rfl | ⟨r', x, rfl⟩
    · obtain ⟨rfl, hnm⟩ := List.append_inj' hp rfl
      cases hnm
      exact hn
    · rw [List.concat_eq_append, ← List.cons_append, ← List.append_assoc] at hp
      exact ih (List.append_inj' hp rfl).1

theorem Inv.start : Inv dirs files [[]] [] := by
  refine ⟨?_, by simp, ?_⟩
  · intro d hd
    rw [List.mem_singleton.mp hd]
    exact .root
  · rintro p ⟨d, n, rfl, -, -⟩
    exact .inr ⟨[], by simp, by simp, by simp⟩

theorem Inv.step (h : Inv dirs files (d :: stack) found) :
    Inv dirs files (((dirs d).map fun n => d ++ [n]).reverse ++ stack)
      (found ++ (files d).map fun n => d ++ [n]) := by
  have hd := h.reached d List.mem_cons_self
  refine ⟨?_, ?_, ?_⟩
  · intro e he
    rcases List.mem_append.mp he with he | he
    · obtain ⟨n, hn, rfl⟩ := List.mem_map.mp (List.mem_reverse.mp he)
      exact .sub hd hn
    · exact h.reached e (List.mem_cons_of_mem _ he)
  · intro p hp
    rcases List.mem_append.mp hp with hp | hp
    · exact h.sound p hp
    · obtain ⟨n, hn, rfl⟩ := List.mem_map.mp hp
      exact ⟨d, n, rfl, hd, hn⟩
  · intro p hp
    rcases h.complete p hp with hfound | ⟨e, he, hpre, hne⟩
    · exact .inl (List.mem_append_left _ hfound)
    rcases List.mem_cons.mp he with rfl | he
    · -- below the node taken: one of its own leaves, or a leaf below a node of it
      obtain ⟨e', n, rfl, he', hn⟩ := hp
      have hpre' : e <+: e' := by
        rcases List.prefix_concat_iff.mp hpre with heq | hpre
        · exact absurd heq hne
        · exact hpre
      obtain ⟨rest, rfl⟩ := hpre'
      cases rest with
      | nil =>
        rw [List.append_nil] at hn ⊢
        exact .inl (List.mem_append_right _ (List.mem_map.mpr ⟨n, hn, rfl⟩))
      | cons m rest =>
        right
        refine ⟨e ++ [m], ?_, ?_, ?_⟩
        · exact List.mem_append_left _
            (List.mem_reverse.mpr (List.mem_map.mpr ⟨m, he'.mid rfl, rfl⟩))
        · exact ⟨rest ++ [n], by simp⟩
        · intro heq
          have hlen := congrArg List.length heq
          simp at hlen
    · exact .inr ⟨e, List.mem_append_right _ he, hpre, hne⟩

theorem snoc_prefix_snoc (h : d ++ [m] <+: d ++ [n]) : m = n := by
  have heq := List.IsPrefix.eq_of_length h (by simp)
  simpa using heq

theorem Apart.start : Apart [[]] ([] : List (List α)) :=
  ⟨List.pairwise_singleton _ _, by simp, List.nodup_nil⟩

theorem Apart.step (hnames : (dirs d ++ files d).Nodup) (h : Apart (d :: stack) found) :
    Apart (((dirs d).map fun n => d ++ [n]).reverse ++ stack)
      (found ++ (files d).map fun n => d ++ [n]) := by
  obtain ⟨hstack, hbelow, hnodup⟩ := h
  rw [List.pairwise_cons] at hstack
  obtain ⟨hdirs, hfiles, hapart⟩ := List.nodup_append.mp hnames
  have hchild {n : α} : d <+: d ++ [n] := List.prefix_append _ _
  -- a child of `d` is as far from the rest of the worklist as `d` is
  have hrest {n : α} {e : List α} (he : e ∈ stack) : ¬ d ++ [n] <+: e ∧ ¬ e <+: d ++ [n] := by
    refine ⟨fun hpre => (hstack.1 e he).1 (hchild.trans hpre), fun hpre => ?_⟩
    rcases List.prefix_concat_iff.mp hpre with rfl | hpre
    · exact (hstack.1 _ he).1 hchild
    · exact (hstack.1 e he).2 hpre
  refine ⟨?_, ?_, ?_⟩
  · refine List.pairwise_append.mpr ⟨?_, hstack.2, ?_⟩
    · rw [List.pairwise_reverse, List.pairwise_map]
      refine hdirs.imp fun hab => ⟨fun hpre => hab (snoc_prefix_snoc hpre).symm,
        fun hpre => hab (snoc_prefix_snoc hpre)⟩
    · intro a ha b hb
      obtain ⟨n, -, rfl⟩ := List.mem_map.mp (List.mem_reverse.mp ha)
      exact hrest hb
  · intro p hp e he
    rcases List.mem_append.mp hp with hp | hp <;> rcases List.mem_append.mp he with he | he
    · obtain ⟨n, -, rfl⟩ := List.mem_map.mp (List.mem_reverse.mp he)
      exact fun hpre => hbelow p hp d List.mem_cons_self (hchild.trans hpre)
    · exact hbelow p hp e (List.mem_cons_of_mem _ he)
    · obtain ⟨n, hn, rfl⟩ := List.mem_map.mp hp
      obtain ⟨m, hm, rfl⟩ := List.mem_map.mp (List.mem_reverse.mp he)
      exact fun hpre => hapart m hm n hn (snoc_prefix_snoc hpre)
    · obtain ⟨n, -, rfl⟩ := List.mem_map.mp hp
      exact (hrest he).2
  · refine List.nodup_append.mpr ⟨hnodup, ?_, ?_⟩
    · exact hfiles.map fun a b hab => by simpa using hab
    · rintro a ha b hb rfl
      obtain ⟨n, -, rfl⟩ := List.mem_map.mp hb
      exact hbelow _ ha d List.mem_cons_self hchild

theorem Inv.explore (h : Inv dirs files stack found) {fuel : Nat}
    (hout : explore dirs files fuel stack found = some out) : p ∈ out ↔ Leaf dirs files p := by
  induction fuel generalizing stack found with
  | zero =>
    cases stack with
    | nil =>
      cases hout
      refine ⟨h.sound p, fun hp => ?_⟩
      rcases h.complete p hp with hp | ⟨d, hd, -⟩
      · exact hp
      · cases hd
    | cons d stack => cases hout
  | succ fuel ih =>
    cases stack with
    | nil =>
      cases hout
      refine ⟨h.sound p, fun hp => ?_⟩
      rcases h.complete p hp with hp | ⟨d, hd, -⟩
      · exact hp
      · cases hd
    | cons d stack => exact ih h.step hout

/-- **The worklist finds the leaves**, all and only. -/
theorem mem_explore {fuel : Nat} (hout : explore dirs files fuel [[]] [] = some out) :
    p ∈ out ↔ Leaf dirs files p :=
  Inv.start.explore hout

theorem Apart.explore (hnames : ∀ d, (dirs d ++ files d).Nodup) (h : Apart stack found) {fuel : Nat}
    (hout : explore dirs files fuel stack found = some out) : out.Nodup := by
  induction fuel generalizing stack found with
  | zero =>
    cases stack with
    | nil =>
      cases hout
      exact h.nodup
    | cons d stack => cases hout
  | succ fuel ih =>
    cases stack with
    | nil =>
      cases hout
      exact h.nodup
    | cons d stack => exact ih (h.step (hnames d)) hout

/-- **And each once.** -/
theorem nodup_explore (hnames : ∀ d, (dirs d ++ files d).Nodup) {fuel : Nat}
    (hout : explore dirs files fuel [[]] [] = some out) : out.Nodup :=
  Apart.start.explore hnames hout

/-! ## Its end -/

/-- Some steps take the nodes off the worklist, whatever is below them on it. -/
def Drains (dirs files : List α → List α) (ds : List (List α)) : Prop :=
  ∃ k, ∀ fuel stack found, ∃ found',
    explore dirs files (fuel + k) (ds ++ stack) found = explore dirs files fuel stack found'

theorem Drains.all {ds : List (List α)} (h : ∀ d ∈ ds, Drains dirs files [d]) :
    Drains dirs files ds := by
  induction ds with
  | nil => exact ⟨0, fun fuel stack found => ⟨found, rfl⟩⟩
  | cons d ds ih =>
    obtain ⟨k, hk⟩ := h d List.mem_cons_self
    obtain ⟨m, hm⟩ := ih fun e he => h e (List.mem_cons_of_mem _ he)
    refine ⟨m + k, ?_⟩
    intro fuel stack found
    obtain ⟨mid, hmid⟩ := hk (fuel + m) (ds ++ stack) found
    obtain ⟨last, hlast⟩ := hm fuel stack mid
    refine ⟨last, ?_⟩
    rw [← hlast, ← hmid, Nat.add_assoc]
    rfl

/-- A node is taken off with all that is below it: by induction on the depth left. -/
theorem Drains.node {n m : Nat} (h : ∀ d, Reached dirs d → d.length ≤ n) (hd : Reached dirs d)
    (hm : n < d.length + m) : Drains dirs files [d] := by
  induction m generalizing d with
  | zero =>
    have hle := h d hd
    omega
  | succ m ih =>
    have hchildren : Drains dirs files (((dirs d).map fun x => d ++ [x]).reverse) := by
      apply Drains.all
      intro e he
      obtain ⟨x, hx, rfl⟩ := List.mem_map.mp (List.mem_reverse.mp he)
      apply ih (.sub hd hx)
      rw [List.length_append, List.length_singleton]
      omega
    obtain ⟨k, hk⟩ := hchildren
    refine ⟨k + 1, ?_⟩
    intro fuel stack found
    exact hk fuel stack _

/-- **The worklist comes to its end** in a tree of bounded depth. -/
theorem explore_ends {n : Nat} (h : ∀ d, Reached dirs d → d.length ≤ n) :
    ∃ k, ∀ fuel, k ≤ fuel → (explore dirs files fuel [[]] []).isSome := by
  have hroot : Drains dirs files [[]] := Drains.node (m := n + 1) h Reached.root (by simp)
  obtain ⟨k, hk⟩ := hroot
  refine ⟨k, ?_⟩
  intro fuel hfuel
  obtain ⟨found, hfound⟩ := hk (fuel - k) [] []
  rw [Nat.sub_add_cancel hfuel] at hfound
  rw [List.append_nil] at hfound
  rw [hfound]
  cases fuel - k <;> rfl

end Worklist
