import Rucux.Ds.RbTreeInsert
import Rucux.Ds.RbTreeRemove

/-!
Every sequence of insertions and removals, for a comparison that is a total preorder.
-/

namespace Rucux.Ds
open Lib
open scoped List

/-- A tree with the nodes that are in it; their number bounds the rounds of every loop. -/
structure Tracked where
  tree : RbTree
  nodes : List Nat

namespace Tracked

inductive Event where
  | insert (z : Nat)
  | remove (z : Nat)

def fuel (v : Tracked) : Nat := v.nodes.length + 1

def step (cmp : Nat → Nat → Int) (v : Tracked) : Event → Option Tracked
  | .insert z => (v.tree.insert v.fuel cmp z).map (⟨·,z :: v.nodes⟩)
  | .remove z => (v.tree.remove v.fuel z).map (⟨·,v.nodes.erase z⟩)

def walk (v : Tracked) : Option (List Nat) :=
  (v.tree.first v.fuel).bind (visit v.tree v.fuel v.fuel)

def machine (cmp : Nat → Nat → Int) : Machine (Option Tracked) Event where
  initial := some ⟨⟨fun _ => none,0⟩,[]⟩
  step := fun o e => o.bind (·.step cmp e)

def Valid (o : Option Tracked) (e : Event) : Prop :=
  match o, e with
  | none, _ => True
  | some v, .insert z => z ≠ 0 ∧ z ∉ v.nodes
  | some v, .remove z => z ∈ v.nodes

instance : (o : Option Tracked) → (e : Event) → Decidable (Valid o e)
  | none, _ => .isTrue trivial
  | some v, .insert z => inferInstanceAs (Decidable (z ≠ 0 ∧ z ∉ v.nodes))
  | some v, .remove z => inferInstanceAs (Decidable (z ∈ v.nodes))

structure Holds (cmp : Nat → Nat → Int) (v : Tracked) (w : ColorTree Nat) : Prop where
  shown : Shows v.tree [] w
  redBlack : w.RedBlack
  sorted : Sorted cmp w.inorder
  nodes : w.inorder ~ v.nodes

def Moves (cmp : Nat → Nat → Int) (xs ys : List Nat) : Event → Prop
  | .insert z => ∃ l r, xs = l ++ r ∧ ys = l ++ z :: r ∧
      (∀ y ∈ l, cmp y z ≤ 0) ∧ ∀ y ∈ r, 0 < cmp y z
  | .remove z => ∃ l r, xs = l ++ z :: r ∧ ys = l ++ r

variable {cmp : Nat → Nat → Int} {v : Tracked} {w : ColorTree Nat}

theorem step_holds (hc : TotalPreorder cmp) (h : v.Holds cmp w) {e : Event} (he : Valid (some v) e) :
    ∃ v' w', v.step cmp e = some v' ∧ v'.Holds cmp w' ∧ Moves cmp w.inorder w'.inorder e := by
  have hfuel : w.inorder.length < v.fuel := by
    rw [h.nodes.length_eq,fuel]
    omega
  cases e with
  | insert z =>
    obtain ⟨t',w',l,r,h1,hs,hrb,hw,hw',hl,hr⟩ := insert_spec hc h.shown h.redBlack h.sorted he.1
      (fun hm => he.2 (h.nodes.mem_iff.mp hm)) hfuel
    refine ⟨⟨t',z :: v.nodes⟩,w',by rw [step,h1]; rfl,⟨hs,hrb,?_,?_⟩,l,r,hw,hw',hl,hr⟩
    · rw [hw']
      exact Sorted.insert hc (hw ▸ h.sorted) hl hr
    · rw [hw']
      exact List.perm_middle.trans ((hw ▸ h.nodes).cons z)
  | remove z =>
    have hz : z ∈ w.inorder := h.nodes.mem_iff.mpr he
    obtain ⟨t',w',h1,hs,hrb,hw'⟩ := remove_spec h.shown h.redBlack hz hfuel
    obtain ⟨l,r,hnot,hw,her⟩ := List.exists_erase_eq hz
    refine ⟨⟨t',v.nodes.erase z⟩,w',by rw [step,h1]; rfl,⟨hs,hrb,?_,?_⟩,l,r,hw,hw'.trans her⟩
    · rw [hw']
      exact h.sorted.sublist List.erase_sublist
    · rw [hw']
      exact h.nodes.erase z

theorem Holds.walk (h : v.Holds cmp w) : v.walk = some w.inorder := by
  have hlen : v.fuel = w.inorder.length + 1 := by rw [fuel,h.nodes.length_eq]
  have hle : w.inorder.length ≤ v.fuel := by omega
  have hv := visit_first h.shown hle
  rwa [← hlen] at hv

theorem run_holds (hc : TotalPreorder cmp) (es : List Event)
    (hok : (machine cmp).Along Valid (machine cmp).initial es) :
    ∃ v w, (machine cmp).run es = some v ∧ v.Holds cmp w := by
  refine (machine cmp).runFrom_invariant Valid
    (I := fun o => ∃ v w, o = some v ∧ Holds cmp v w) ?_ ?_ es hok
  · rintro o e ⟨v,w,rfl,h⟩ he
    obtain ⟨v',w',h1,h',-⟩ := step_holds hc h he
    exact ⟨v',w',h1,h'⟩
  · exact ⟨_,.nil,rfl,⟨rfl,trivial,.nil⟩,⟨rfl,trivial,0,rfl⟩,.nil,.nil⟩

end Tracked

open Tracked

/-- For every total preorder and every run of insertions of new nodes and removals of present ones no null pointer
is followed and every loop ends. Memory always holds a red-black tree whose sequence is sorted, and each call
inserts or takes out exactly its node. -/
theorem rbTree_sequence (cmp : Nat → Nat → Int) (hc : TotalPreorder cmp) (es : List Event)
    (hok : (machine cmp).Along Valid (machine cmp).initial es) :
    ∃ v w, (machine cmp).run es = some v ∧ v.Holds cmp w ∧ v.walk = some w.inorder ∧
      ∀ e, Valid (some v) e → ∃ v' w', (machine cmp).run (es ++ [e]) = some v' ∧
        v'.Holds cmp w' ∧ v'.walk = some w'.inorder ∧ Moves cmp w.inorder w'.inorder e := by
  obtain ⟨v,w,hrun,h⟩ := run_holds hc es hok
  refine ⟨v,w,hrun,h,h.walk,fun e he => ?_⟩
  obtain ⟨v',w',hstep,h',hmoves⟩ := step_holds hc h he
  refine ⟨v',w',?_,h',h'.walk,hmoves⟩
  rw [(machine cmp).run_concat,hrun]
  exact hstep

namespace Tracked

/-- Nodes ordered by tens, so that some are equal to each other. -/
def byTens (x y : Nat) : Int := (x/10 : Nat) - (y/10 : Nat)

theorem byTens_preorder : TotalPreorder byTens where
  swap := by simp only [byTens]; omega
  trans := by simp only [byTens]; omega

def tenCalls : List Event :=
  [.insert 50,.insert 31,.insert 80,.insert 30,.insert 32,.remove 50,.insert 10,.insert 33,
    .remove 31,.remove 80]

end Tracked

theorem rbTree_sequence_tenCalls : ∃ v w, (machine byTens).run tenCalls = some v ∧
    v.Holds byTens w ∧ w.inorder = [10,30,32,33] := by
  obtain ⟨v,w,hrun,h,hwalk,-⟩ := rbTree_sequence byTens byTens_preorder tenCalls (by decide +kernel)
  have hv : ((machine byTens).run tenCalls).bind Tracked.walk = some [10,30,32,33] := by
    decide +kernel
  refine ⟨v,w,hrun,h,?_⟩
  rw [hrun,Option.bind_some,hwalk] at hv
  exact Option.some.inj hv

/-- No path from the root of a tree with `n` nodes is longer than `2 log (n+1)`. -/
theorem rbTree_depth (cmp : Nat → Nat → Int) (hc : TotalPreorder cmp) (es : List Event)
    (hok : (machine cmp).Along Valid (machine cmp).initial es) : ∃ v w, (machine cmp).run es = some v ∧
      v.Holds cmp w ∧ 2^w.height ≤ (v.nodes.length + 1)^2 := by
  obtain ⟨v,w,hrun,h⟩ := run_holds hc es hok
  obtain ⟨hblack,hfine,n,hb⟩ := h.redBlack
  have hh := hb.height_le hfine
  rw [hblack,Color.weight] at hh
  refine ⟨v,w,hrun,h,?_⟩
  calc 2^w.height ≤ 2^(n*2) := Nat.pow_le_pow_right (by decide) (by omega)
    _ = (2^n)^2 := Nat.pow_mul 2 n 2
    _ ≤ _ := Nat.pow_le_pow_left (h.nodes.length_eq ▸ hb.pow_le) 2

theorem rbTree_depth_tenCalls : ∃ v w, (machine byTens).run tenCalls = some v ∧ v.Holds byTens w ∧
    2^w.height ≤ (v.nodes.length + 1)^2 :=
  rbTree_depth byTens byTens_preorder tenCalls (by decide +kernel)

end Rucux.Ds
