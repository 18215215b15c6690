import Rucux.Ds.RbTree

namespace Rucux.Ds
open Lib Lib.ColorTree RbNode Option RbTree

variable {t : RbTree} {fs : List (Frame Nat)} {f g : Frame Nat} {c : Color}
  {s l r w : ColorTree Nat} {x y z p fuel : Nat} {mem : Nat → Option RbNode}

theorem before_eq_nil (h : ∀ f ∈ fs, f.side = .left) : before fs = [] := by
  induction fs with
  | nil => rfl
  | cons f fs ih =>
    simp only [List.mem_cons,forall_eq_or_imp] at h
    simp [before,h.1,ih h.2]

section
variable (h : Rep t.mem p s) (hs : s ≠ .nil) (hfuel : s.inorder.length ≤ fuel)
include h hs hfuel

theorem treeMinimum_spec : ∃ gs c y r, s = plug gs (.node c .nil y r) ∧ (∀ g ∈ gs, g.side = .left) ∧
      t.treeMinimum fuel (top s) = some y := by
  induction s generalizing p fuel with
  | nil => exact absurd rfl hs
  | node c l x r ihl ihr =>
    obtain ⟨hx,hcell,hl,hr⟩ := h
    simp only [inorder,List.length_append,List.length_cons] at hfuel
    obtain ⟨fuel,rfl⟩ : ∃ m, fuel = m+1 := ⟨fuel-1,by omega⟩
    by_cases hn : l = .nil
    · subst hn
      exact ⟨[],c,x,r,rfl,by simp,by simp [treeMinimum,hcell]⟩
    have hlen : l.inorder.length ≤ fuel := by omega
    obtain ⟨gs,d,y,k,hl',hleft,hmin⟩ := ihl hl hn hlen
    refine ⟨gs ++ [⟨.left,c,x,r⟩],d,y,k,?_,?_,?_⟩
    · rw [plug_append,← hl']
      rfl
    · simpa [or_imp,forall_and] using hleft
    · have h0 : top l ≠ 0 := fun h0 => hn (hl.top_eq_zero.mp h0)
      simpa [treeMinimum,hcell,h0] using hmin

theorem treeMinimum_eq : t.treeMinimum fuel (top s) = some (s.inorder.headD 0) := by
  obtain ⟨gs,c,y,r,rfl,hleft,hmin⟩ := treeMinimum_spec h hs hfuel
  rw [hmin,inorder_plug,before_eq_nil hleft]
  rfl

end

theorem first_eq (h : Shows t [] w) (hfuel : w.inorder.length ≤ fuel) :
    t.first fuel = some (w.inorder.headD 0) := by
  have hroot : t.root = top w := h.above
  rw [first,hroot]
  by_cases hw : w = .nil
  · subst hw
    rfl
  · rw [if_neg (fun h0 => hw (h.rep.top_eq_zero.mp h0)),treeMinimum_eq h.rep hw hfuel]

theorem climb_spec (h : Shows t fs s) (hs : s ≠ .nil) (hfuel : fs.length < fuel) :
    t.climb fuel (top s) (up fs) = some ((after fs).headD 0) := by
  induction fs generalizing s fuel with
  | nil =>
    obtain ⟨fuel,rfl⟩ : ∃ m, fuel = m+1 := ⟨fuel-1,by omega⟩
    simp [climb,after]
  | cons f fs ih =>
    obtain ⟨fuel,rfl⟩ : ∃ m, fuel = m+1 := ⟨fuel-1,by omega⟩
    obtain ⟨h0,hcell,-⟩ := h.above
    have hne := h.top_ne_sibling (.inl hs)
    have hlen : fs.length < fuel := by simpa using hfuel
    have hup := ih (shows_fill.mpr h) join_ne_nil hlen
    rw [Frame.fill,top_join] at hup
    simp only [climb,up_cons,if_neg h0,hcell,bind_eq_bind,bind_some, facing_parent,hup]
    cases hf : f.side <;> simp [facing,after,hf,hne]

theorem next_eq (h : Shows t fs (.node c l x r))
    (hfuel : (plug fs (.node c l x r)).inorder.length ≤ fuel) :
    t.next fuel x = some ((r.inorder ++ after fs).headD 0) := by
  obtain ⟨hx,hcell,hl,hr⟩ := h.rep
  have hle := length_le_plug fs (.node c l x r)
  simp only [inorder,List.length_append,List.length_cons] at hle
  rw [next,if_neg hx]
  simp only [hcell,bind_eq_bind,bind_some]
  by_cases hn : r = .nil
  · subst hn
    have hlen : fs.length < fuel := by omega
    have hc := climb_spec h (by simp) hlen
    simpa [inorder] using hc
  have h0 : top r ≠ 0 := fun h0 => hn (hr.top_eq_zero.mp h0)
  rw [if_pos h0,treeMinimum_eq hr hn (by omega)]
  cases hi : r.inorder with
  | nil =>
    cases r with
    | nil => exact absurd rfl hn
    | node => simp [inorder] at hi
  | cons => rfl

theorem next_spec {xs ys : List Nat} (h : Shows t [] w) (hx : w.inorder = xs ++ x :: ys)
    (hfuel : w.inorder.length ≤ fuel) : t.next fuel x = some (ys.headD 0) := by
  obtain ⟨fs,c,l,r,rfl⟩ := exists_plug (t := w) (x := x) (by simp [hx])
  have hs : Shows t fs (.node c l x r) := by simpa using shows_plug.mp h
  have hd := hs.distinct
  simp only [inorder_plug,inorder,List.append_assoc,List.cons_append] at hx hd
  rw [← List.append_assoc] at hx hd
  have hnot := (List.nodup_cons.mp (List.nodup_middle.mp hd)).1
  rw [List.mem_append,not_or] at hnot
  rw [next_eq hs hfuel,((List.append_cons_inj_of_notMem hnot.1 hnot.2).mp hx).2.2]

def visit (t : RbTree) (fuel : Nat) : Nat → Nat → Option (List Nat)
  | 0, _ => none
  | rounds+1, a =>
    if a = 0 then some []
    else do
      let b ← t.next fuel a
      let bs ← visit t fuel rounds b
      return a :: bs

theorem visit_spec (xs : List Nat) {ys : List Nat} (h : Shows t [] w) (hx : w.inorder = xs ++ ys)
    (hfuel : w.inorder.length ≤ fuel) : visit t fuel (ys.length+1) (ys.headD 0) = some ys := by
  induction ys generalizing xs with
  | nil => rfl
  | cons y ys ih =>
    have hy : y ≠ 0 := h.rep.ne_zero (mem_elems.mpr (by simp [hx]))
    have hrest := ih (xs ++ [y]) (by simp [hx])
    rw [List.headD_cons,List.length_cons,visit,if_neg hy,next_spec h hx hfuel]
    simp only [bind_eq_bind,bind_some,hrest]
    rfl

theorem visit_first (h : Shows t [] w) (hfuel : w.inorder.length ≤ fuel) :
    (t.first fuel).bind (visit t fuel (w.inorder.length+1)) = some w.inorder := by
  rw [first_eq h hfuel,bind_some]
  exact visit_spec [] h rfl hfuel

theorem findContaining_spec {cmp : Nat → Int} (h : Rep t.mem p s)
    (hmono : s.inorder.Pairwise fun x y => 0 ≤ cmp y → 0 < cmp x)
    (hfuel : s.inorder.length < fuel) :
    ∃ x, t.findContaining cmp fuel (top s) = some x ∧
      (x ∈ s.inorder ∧ cmp x = 0 ∨ x = 0 ∧ ∀ y ∈ s.inorder, cmp y ≠ 0) := by
  induction s generalizing p fuel with
  | nil =>
    obtain ⟨fuel,rfl⟩ : ∃ m, fuel = m+1 := ⟨fuel-1,by omega⟩
    exact ⟨0,by simp [findContaining],.inr ⟨rfl,by simp [inorder]⟩⟩
  | node c l x r ihl ihr =>
    obtain ⟨hx,hcell,hl,hr⟩ := h
    obtain ⟨hpl,hpr,hlr⟩ := List.pairwise_append.mp hmono
    obtain ⟨hxr,hpr⟩ := List.pairwise_cons.mp hpr
    simp only [inorder,List.length_append,List.length_cons] at hfuel
    obtain ⟨fuel,rfl⟩ : ∃ m, fuel = m+1 := ⟨fuel-1,by omega⟩
    have hstep : t.findContaining cmp (fuel+1) x = if cmp x = 0 then some x
        else t.findContaining cmp fuel (if cmp x < 0 then top l else top r) := by
      simp [findContaining,hx,hcell]
    rw [top_node,hstep]
    by_cases h0 : cmp x = 0
    · exact ⟨x,by rw [if_pos h0],.inl ⟨by simp [inorder],h0⟩⟩
    rw [if_neg h0]
    by_cases hlt : cmp x < 0
    · have hlen : l.inorder.length < fuel := by omega
      obtain ⟨y,hy,hres⟩ := ihl hl hpl hlen
      refine ⟨y,by rw [if_pos hlt,hy],?_⟩
      rcases hres with ⟨hm,hc⟩ | ⟨hy0,hno⟩
      · exact .inl ⟨by simp [inorder,hm],hc⟩
      refine .inr ⟨hy0,fun z hz => ?_⟩
      simp only [inorder,List.mem_append,List.mem_cons] at hz
      rcases hz with hz | rfl | hz
      · exact hno z hz
      · exact h0
      have := hxr z hz
      omega
    have hlen : r.inorder.length < fuel := by omega
    obtain ⟨y,hy,hres⟩ := ihr hr hpr hlen
    refine ⟨y,by rw [if_neg hlt,hy],?_⟩
    rcases hres with ⟨hm,hc⟩ | ⟨hy0,hno⟩
    · exact .inl ⟨by simp [inorder,hm],hc⟩
    refine .inr ⟨hy0,fun z hz => ?_⟩
    simp only [inorder,List.mem_append,List.mem_cons] at hz
    rcases hz with hz | rfl | hz
    · have := hlr z hz x (by simp)
      omega
    · exact h0
    · exact hno z hz

end Rucux.Ds
