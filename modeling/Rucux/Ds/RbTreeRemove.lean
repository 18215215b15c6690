import Rucux.Ds.RbTreeWalk

namespace Rucux.Ds
open Lib Lib.ColorTree RbNode List RbTree

variable {t : RbTree} {fs : List (Frame Nat)} {f g : Frame Nat} {i : Side} {c d : Color}
  {s a b e k l r w near far : ColorTree Nat} {p q u x y z n m fuel : Nat}

theorem takeOut_spec (h : Shows t fs (join i c .nil z k)) :
    ∃ t', t.transplant z (top k) = some t' ∧ Shows t' fs k ∧ t'.mem z = t.mem z := by
  obtain ⟨hz,hcell,-,hk⟩ := rep_join.mp h.rep
  have hn : (z :: k.elems ++ outer fs).Nodup :=
    (elems_join.append_right _).nodup_iff.mp h.nodup
  have habove := h.above
  rw [top_join] at habove
  obtain ⟨t',h1,ha,hr,hm⟩ := transplant_spec habove hz hcell facing_parent (by grind) hk (by grind)
  refine ⟨t',h1,⟨ha,hr,?_⟩,hm z (by grind) (by grind)⟩
  have hd := h.distinct
  rw [inorder_plug] at hd ⊢
  refine hd.sublist ?_
  refine Sublist.append (Sublist.append (Sublist.refl _) ?_) (Sublist.refl _)
  cases i <;> simp [join,inorder]

theorem takePlace_spec (habove : Above t fs z) (hz : z ≠ 0)
    (hcell : t.mem z = some ⟨up fs,top l,u,c⟩) (hl : Rep t.mem z l) (hne : l ≠ .nil)
    (hy : Rep t.mem q (.node d .nil y r))
    (hn : (z :: (l.elems ++ y :: r.elems) ++ outer fs).Nodup) :
    ∃ t', t.takePlace z y = some t' ∧ Above t' fs y ∧ Rep t'.mem (up fs) (.node c l y r) := by
  obtain ⟨t1,h1,ha1,hr1,hm1⟩ := transplant_spec habove hz hcell rfl (by grind) hy (by grind [elems])
  obtain ⟨hy0,hy1,-,hrr⟩ := hr1
  have hz1 : t1.mem z = some ⟨up fs,top l,u,c⟩ := by rw [hm1 z (by grind [elems]) (by grind),hcell]
  have hl1 : Rep (t1.put y ⟨up fs,top l,top r,d⟩).mem z l := hl.congr (by grind [elems])
  have hl0 : top l ≠ 0 := fun h0 => hne (hl.top_eq_zero.mp h0)
  obtain ⟨t2,h2,hl2,hroot,hm2⟩ := setParent_spec hl1 (by grind) y
  rw [setParent,if_neg hl0] at h2
  have hy2 : t2.mem y = some ⟨up fs,top l,top r,d⟩ := by rw [hm2 y (by grind),put_same]
  refine ⟨t2.put y ⟨up fs,top l,top r,c⟩,?_,?_,hy0,put_same _ _ _,?_,?_⟩
  · rw [top_node] at h1
    simp only [takePlace,setColor,h1,hz1,write_eq hy1,h2,write_eq hy2,
      Option.bind_eq_bind,Option.bind_some]
  · exact ha1.congr hroot (by grind [elems])
  · exact hl2.congr (by grind)
  · exact hrr.congr (by grind)

theorem detachSuccessor_spec {gs : List (Frame Nat)}
    (h : Shows t fs (.node c l z (plug gs (.node d .nil y r)))) :
    ∃ t' ny q, t.mem y = some ny ∧ ny.color = d ∧ ny.right = top r ∧
      t.detachSuccessor z y ny = some (up (gs ++ ⟨.right,c,y,l⟩ :: fs),t') ∧
      Above t' fs z ∧ t'.mem z = some ⟨up fs,top l,top (plug gs (.node d .nil y r)),c⟩ ∧
      Rep t'.mem z l ∧ Rep t'.mem q (.node d .nil y (plug gs r)) := by
  have hs : Shows t (gs ++ ⟨.right,c,z,l⟩ :: fs) (.node d .nil y r) :=
    shows_plug.mp (h.far (i := .left))
  cases gs with
  | nil =>
    obtain ⟨hz,hcz,hl,hr⟩ := h.rep
    refine ⟨t,_,z,hs.rep.2.1,rfl,rfl,?_,h.above,hcz,hl,hr⟩
    simp [detachSuccessor]
  | cons g gs =>
    have hn := hs.nodup
    rw [outer_append] at hn
    simp only [elems,outer] at hn
    have hcy := hs.rep.2.1
    obtain ⟨t1,h1,hs1,hy1⟩ := takeOut_spec (i := .left) hs
    rw [hcy] at hy1
    have hs2 : Shows t1 fs (.node c l z (plug (g :: gs) r)) :=
      (shows_plug.mpr hs1).parentFar (i := .left)
    have hn2 := hs2.nodup
    simp only [elems] at hn2
    have hyk : y ∉ z :: (l.elems ++ (plug (g :: gs) r).elems) ++ outer fs := by
      have hp : ∀ x, x ∈ (plug (g :: gs) r).elems ↔ x ∈ r.elems ++ outer (g :: gs) :=
        fun x => (elems_plug (g :: gs) r).mem_iff
      simp only [outer] at hp
      grind
    obtain ⟨hz,hcz,hl,hk⟩ := hs2.rep
    have hk2 : Rep (t1.put y ⟨g.elem,0,top (plug (g :: gs) r),d⟩).mem z (plug (g :: gs) r) :=
      hk.congr (by grind)
    have hne : plug (g :: gs) r ≠ .nil := plug_ne_nil gs join_ne_nil
    have hk0 : top (plug (g :: gs) r) ≠ 0 := fun h0 => hne (hk.top_eq_zero.mp h0)
    obtain ⟨t2,h2,hr2,hroot,hm2⟩ := setParent_spec hk2 (by grind) y
    rw [setParent,if_neg hk0] at h2
    refine ⟨t2,_,g.elem,hcy,rfl,rfl,?_,?_,?_,?_,?_⟩
    · have hgz : g.elem ≠ z := by grind
      simp only [detachSuccessor,cons_append,up_cons,if_neg hgz,h1,hcz,write_eq hy1,h2,
        Option.bind_eq_bind,Option.bind_some,top_nil]
      rfl
    · exact hs2.above.congr hroot (by grind)
    · rw [top_plug_cons _ _ _ r,hm2 z (by grind),put_other _ (by grind),hcz]
    · exact hl.congr (by grind)
    refine ⟨hs.rep.1,?_,trivial,hr2⟩
    rw [hm2 y (by grind),put_same]
    rfl

/-- What is known when the fix-up begins: a subtree `k` in the place that a node of the colour
`col` has left. -/
structure Spliced (t : RbTree) (gs : List (Frame Nat)) (k : ColorTree Nat) (col : Color)
    (xs : List Nat) : Prop where
  shown : Shows t gs k
  inorder : (plug gs k).inorder = xs
  done : col = .red → (plug gs k).RedBlack
  lacking : col = .black → ∃ n, Removing gs k n

theorem splice_one (h : Shows t fs (join i c .nil z k)) (hrb : (plug fs (join i c .nil z k)).RedBlack) :
    ∃ t', t.transplant z (top k) = some t' ∧ Spliced t' fs k c (before fs ++ k.inorder ++ after fs) := by
  obtain ⟨t',h1,hs,-⟩ := takeOut_spec h
  obtain ⟨n,hroom,hf,hb⟩ := hrb.room
  rw [color_join] at hroom
  obtain ⟨hred,hblack⟩ := hroom.takeOut hf hb
  exact ⟨t',h1,hs,inorder_plug _ _,hred,hblack⟩

theorem splice_spec (h : Shows t fs (.node c l z r))
    (hrb : (plug fs (.node c l z r)).RedBlack) (hfuel : r.inorder.length ≤ fuel) :
    ∃ col gs k t', t.splice fuel z = some (col,top k,up gs,t') ∧
      Spliced t' gs k col (before fs ++ (l.inorder ++ r.inorder) ++ after fs) := by
  obtain ⟨hz,hcell,hl,hr⟩ := h.rep
  by_cases hnl : l = .nil
  · subst hnl
    obtain ⟨t',h1,hs⟩ := splice_one (i := .left) h hrb
    refine ⟨c,fs,r,t',?_,hs⟩
    simp [splice,hcell,h1]
  by_cases hnr : r = .nil
  · subst hnr
    obtain ⟨t',h1,hs⟩ := splice_one (i := .right) h hrb
    refine ⟨c,fs,l,t',?_,by simpa [inorder] using hs⟩
    have hl0 : top l ≠ 0 := fun h0 => hnl (hl.top_eq_zero.mp h0)
    simp [splice,hcell,hl0,h1]
  obtain ⟨gs,d,y,k,rfl,hleft,hmin⟩ := treeMinimum_spec hr hnr hfuel
  obtain ⟨t1,ny,q,hy,hcol,hright,h1,ha1,hz1,hl1,hy1⟩ := detachSuccessor_spec h
  -- the successor's element is the first of the right subtree
  have hin : (plug gs (.node d .nil y k)).inorder = y :: (plug gs k).inorder := by
    simp [inorder_plug,before_eq_nil hleft,inorder]
  have hperm : (plug gs (.node d .nil y k)).elems ~ y :: (plug gs k).elems :=
    (elems_plug gs _).trans ((elems_plug gs k).symm.cons y)
  obtain ⟨t2,h2,ha2,hr2⟩ := takePlace_spec ha1 hz hz1 hl1 hnl hy1
    ((((hperm.append_left _).cons z).append_right _).nodup_iff.mp h.nodup)
  have hs2 : Shows t2 fs (.node c l y (plug gs k)) := by
    refine ⟨ha2,hr2,h.distinct.sublist ?_⟩
    simp only [inorder_plug fs,inorder,hin]
    exact (((sublist_cons_self z _).append_left _).append_left _).append_right _
  have hplug : plug (gs ++ ⟨.right,c,y,l⟩ :: fs) k = plug fs (.node c l y (plug gs k)) :=
    plug_append _ _ _
  have hrb' : (plug (gs ++ ⟨.right,c,z,l⟩ :: fs) (.node d .nil y k)).RedBlack := by
    rw [plug_append]
    exact hrb
  obtain ⟨n,hroom,hf,hb⟩ := hrb'.room
  obtain ⟨hred,hblack⟩ := hroom.rename (y := y).takeOut (s := .left) hf hb
  refine ⟨d,gs ++ ⟨.right,c,y,l⟩ :: fs,k,t2,?_,shows_plug.mp (hs2.far (i := .left)),?_,hred,hblack⟩
  · have hl0 : top l ≠ 0 := fun h0 => hnl (hl.top_eq_zero.mp h0)
    have hr0 : top (plug gs (.node d .nil y k)) ≠ 0 := fun h0 => hnr (hr.top_eq_zero.mp h0)
    simp [splice,hcell,hl0,hr0,hmin,hy,h1,h2,hcol,hright]
  · rw [hplug,inorder_plug,hin]
    rfl

section
variable (h : Shows t (f :: fs) s) (hr : Removing (f :: fs) s n)
include h hr

theorem rotateSibling_spec :
    ∃ t' g gs, t.rotateSibling f.side f.elem (top f.sibling) = some (top g.sibling,t') ∧
      Shows t' (g :: gs) s ∧ Removing (g :: gs) s n ∧ g.side = f.side ∧ g.elem = f.elem ∧
      g.sibling.color = .black ∧ (g :: gs = f :: fs ∨ g.color = .red) ∧
      (plug (g :: gs) s).inorder = (plug (f :: fs) s).inorder := by
  have hred := isRed_spec h.parent.far
  cases hc : f.sibling.color with
  | black => exact ⟨t,f,fs,by simp [rotateSibling,hred,hc],h,hr,rfl,rfl,hc,.inl rfl,rfl⟩
  | red =>
    obtain ⟨i,c,y,e⟩ := f
    obtain ⟨j,a,x,b,rfl⟩ := eq_join i (ne_nil_of_red hc)
    obtain rfl : j = .red := by simpa using hc
    obtain ⟨hr',hblack⟩ := hr.redSibling rfl
    obtain ⟨t1,h1,hs1⟩ := setColor_spec h.parent.far .black
    obtain ⟨t2,h2,hs2⟩ := setColor_spec hs1.parentFar .red
    obtain ⟨t3,h3,hs3⟩ := rotate_spec hs2
    refine ⟨t3,_,_,?_,hs3.near.near,hr',rfl,rfl,hblack,.inr rfl,?_⟩
    · simp only [top_join] at hred
      simp [rotateSibling,hred,h1,h2,h3,hs3.near.cell]
    · refine inorder_plug_congr fs ?_
      cases i <;> simp [Frame.fill,join,inorder]

theorem turnNear_spec (hw : f.sibling = join f.side .black near x far)
    (hred : near.color = .red ∨ far.color = .red) :
    ∃ t' a y b, t.turnNear f.side f.elem x = some (y,t') ∧
      Shows t' ({ f with sibling := join f.side .black a y b } :: fs) s ∧
      Removing ({ f with sibling := join f.side .black a y b } :: fs) s n ∧ b.color = .red ∧
      (join f.side .black a y b).inorder = f.sibling.inorder := by
  obtain ⟨i,c,p,e⟩ := f
  obtain rfl : e = join i .black near x far := hw
  have hcell := h.parent.far.cell
  have hfar := isRed_spec h.parent.far.far
  cases hc : far.color with
  | red =>
    refine ⟨t,near,x,far,?_,h,hr,hc,rfl⟩
    simp [turnNear,hcell,hfar,hc]
  | black =>
    have hn : near.color = .red := by simpa [hc] using hred
    obtain ⟨j,a,y,b,rfl⟩ := eq_join i (ne_nil_of_red hn)
    obtain rfl : j = .red := by simpa using hn
    obtain ⟨t1,h1,hs1⟩ := blacken_spec h.parent.far.near
    rw [top_join] at h1
    rw [paint_join] at hs1
    obtain ⟨t2,h2,hs2⟩ := setColor_spec hs1.parent .red
    rw [← join_flip,← join_flip (s := i) (c := .black)] at hs2
    obtain ⟨t3,h3,hs3⟩ := rotate_spec hs2
    rw [join_flip,join_flip] at hs3
    refine ⟨t3,a,y,join i .red b x far,?_,hs3.parentFar.near,hr.nearCase rfl hc,color_join,?_⟩
    · simp [turnNear,hcell,hfar,hc,h1,h2,h3,hs3.parentFar.cell]
    · cases i <;> simp [join,inorder]

end

theorem liftSibling_spec (h : Shows t (⟨i,c,p,join i d near x far⟩ :: fs) s) :
    ∃ t', t.liftSibling i p x = some t' ∧
      Shows t' fs (join i c (join i .black s p near) x (far.paint .black)) := by
  have hp := h.parent.cell
  obtain ⟨t1,h1,hs1⟩ := setColor_spec h.parent.far c
  obtain ⟨t2,h2,hs2⟩ := setColor_spec hs1.parentFar .black
  have hx := hs2.far.cell
  obtain ⟨t3,h3,hs3⟩ := blacken_spec hs2.far.far
  obtain ⟨t4,h4,hs4⟩ := rotate_spec hs3.parentFar.parentFar
  refine ⟨t4,?_,hs4⟩
  simp only [liftSibling,hp,facing_color,h1,h2,hx,facing_child_flip,h3,h4,
    Option.bind_eq_bind,Option.bind_some]

/-- A round either moves the place up, or to a red node, or it ends the fix-up. -/
theorem removeRound_spec (h : Shows t (f :: fs) s) (hr : Removing (f :: fs) s n) (hb : s.color = .black) :
    ∃ t', (∃ gs k m, t.removeRound (top s) f.elem = some (top k,up gs,t') ∧ Shows t' gs k ∧
        Removing gs k m ∧ (k.color = .red ∨ gs = fs) ∧
        (plug gs k).inorder = (plug (f :: fs) s).inorder) ∨
      ∃ w, t.removeRound (top s) f.elem = some (t'.root,f.elem,t') ∧ Shows t' [] w ∧ w.RedBlack ∧
        w.inorder = (plug (f :: fs) s).inorder := by
  have hcell := h.above.2.1
  have hside := h.top_ne_sibling (.inr hr.sibling)
  obtain ⟨t1,g,gs,h1,hs1,hr1,hgs,hge,hgc,hcase,hin1⟩ := rotateSibling_spec h hr
  obtain ⟨i,c,p,e⟩ := g
  obtain ⟨j,near,x,far,rfl⟩ := eq_join i hr1.sibling
  obtain rfl : i = f.side := hgs
  obtain rfl : p = f.elem := hge
  obtain rfl : j = .black := by simpa using hgc
  rw [top_join] at h1
  have hx := hs1.parent.far.cell
  have hnear := isRed_spec hs1.parent.far.near
  have hfar := isRed_spec hs1.parent.far.far
  have hstart : t.removeRound (top s) f.elem = (do
      if !decide (near.color = .red) && !decide (far.color = .red) then
        let t ← t1.setColor x .red
        let np ← t.mem f.elem
        return (f.elem,np.parent,t)
      else
        let r ← t1.turnNear f.side f.elem x
        let t ← r.2.liftSibling f.side f.elem r.1
        return (t.root,f.elem,t)) := by
    simp only [removeRound,hcell,side_facing hside,facing_child_flip,h1,hx,facing_child,
      hnear,hfar,Option.bind_eq_bind,Option.bind_some]
  by_cases hcol : near.color = .black ∧ far.color = .black
  · obtain ⟨t2,h2,hs2⟩ := setColor_spec hs1.parent.far .red
    have hp := hs2.parentFar.cell
    refine ⟨t2,.inl ⟨gs,_,_,?_,hs2.parentFar,hr1.recolor hb rfl hcol.1 hcol.2,?_,?_⟩⟩
    · rw [hstart]
      simp [hcol.1,hcol.2,h2,hp]
    · rw [color_join]
      rcases hcase with heq | hred
      · exact .inr (List.cons.inj heq).2
      · exact .inl hred
    rw [← hin1]
    refine inorder_plug_congr gs ?_
    cases f.side <;> simp [Frame.fill,join,inorder]
  have hred : near.color = .red ∨ far.color = .red := by
    cases hn : near.color <;> cases hf : far.color <;> simp_all
  obtain ⟨t2,a,y,b,h2,hs2,hr2,hbc,hin2⟩ := turnNear_spec hs1 hr1 rfl hred
  obtain ⟨t3,h3,hs3⟩ := liftSibling_spec hs2
  refine ⟨t3,.inr ⟨_,?_,shows_plug.mpr (by simpa using hs3),hr2.farCase hb rfl hbc,?_⟩⟩
  · rw [hstart,if_neg (by rcases hred with hc | hc <;> simp [hc])]
    simp [h2,h3]
  rw [← hin1]
  refine inorder_plug_congr gs ?_
  rw [Frame.fill]
  dsimp only at hin2 ⊢
  generalize f.side = i at hin2 ⊢
  cases i <;> simp only [join,inorder,inorder_paint] at hin2 ⊢ <;> simp [← hin2]

theorem removeFixup_spec (h : Shows t fs s) (hr : Removing fs s n)
    (hfuel : s.color = .red ∧ 1 ≤ fuel ∨ fs.length + 2 ≤ fuel) :
    ∃ t' w, removeFixup fuel t (top s) (up fs) = some t' ∧ Shows t' [] w ∧ w.RedBlack ∧
      w.inorder = (plug fs s).inorder := by
  induction fuel generalizing t fs s n with
  | zero => omega
  | succ fuel ih =>
    have hred := isRed_spec h
    have hroot := h.top_eq_root
    by_cases hend : fs = [] ∨ s.color = .red
    · obtain ⟨t1,h1,hs1⟩ := blacken_spec h
      refine ⟨t1,plug fs (s.paint .black),?_,shows_plug.mpr (by simpa using hs1),?_,?_⟩
      · have hcond : (decide (top s = t.root) || decide (s.color = .red)) = true := by
          simpa [hroot] using hend
        simp only [removeFixup,hred,Option.bind_eq_bind,Option.bind_some,hcond,if_true,h1]
      · by_cases hc : s.color = .red
        · exact hr.finish hc
        obtain rfl : fs = [] := hend.resolve_right hc
        exact hr.atRoot
      · exact inorder_plug_congr fs (inorder_paint _ _)
    obtain ⟨hfs,hc⟩ := not_or.mp hend
    obtain ⟨f,gs,rfl⟩ := exists_cons_of_ne_nil hfs
    have hb : s.color = .black := by cases hs : s.color <;> simp_all
    have hstart : removeFixup (fuel+1) t (top s) (up (f :: gs)) =
        (t.removeRound (top s) f.elem).bind fun r => removeFixup fuel r.2.2 r.1 r.2.1 := by
      simp [removeFixup,hred,hroot,hb]
    simp only [hc,false_and,false_or,length_cons] at hfuel
    obtain ⟨t1,⟨hs,k,m,h1,hs1,hr1,hk,hin1⟩ | ⟨w,h1,hs1,hrb,hin1⟩⟩ := removeRound_spec h hr hb
    · obtain ⟨t2,w,h2,hs2,hrb,hin2⟩ := ih hs1 hr1 (by
        rcases hk with hk | rfl
        · exact .inl ⟨hk,by omega⟩
        · exact .inr (by omega))
      exact ⟨t2,w,by rw [hstart,h1,Option.bind_some,h2],hs2,hrb,hin2.trans hin1⟩
    -- the loop sees the root and ends
    obtain ⟨fuel,rfl⟩ : ∃ m, fuel = m+1 := ⟨fuel-1,by omega⟩
    obtain ⟨t2,h2,hs2⟩ := blacken_spec hs1
    have hroot1 : t1.root = top w := hs1.above
    rw [paint_self hrb.1] at hs2
    refine ⟨t2,w,?_,hs2,hrb,hin1⟩
    rw [hstart,h1,Option.bind_some,hroot1]
    simp [removeFixup,isRed_spec hs1,hroot1,h2]

theorem remove_spec (h : Shows t [] w) (hrb : w.RedBlack) (hz : z ∈ w.inorder)
    (hfuel : w.inorder.length < fuel) :
    ∃ t' w', t.remove fuel z = some t' ∧ Shows t' [] w' ∧ w'.RedBlack ∧
      w'.inorder = w.inorder.erase z := by
  obtain ⟨fs,c,l,r,rfl⟩ := exists_plug hz
  have hs : Shows t fs (.node c l z r) := by simpa using shows_plug.mp h
  have hle := length_le_plug fs (.node c l z r)
  simp only [inorder,length_append,length_cons] at hle
  have hlr : r.inorder.length ≤ fuel := by omega
  obtain ⟨col,gs,k,t1,h1,hsp⟩ := splice_spec hs hrb hlr
  have herase : (plug gs k).inorder = (plug fs (.node c l z r)).inorder.erase z := by
    have hd := hs.distinct
    have heq : (plug fs (.node c l z r)).inorder =
        (before fs ++ l.inorder) ++ z :: (r.inorder ++ after fs) := by
      simp [inorder_plug,inorder]
    rw [heq] at hd ⊢
    have hnot := (nodup_cons.mp (nodup_middle.mp hd)).1
    rw [hsp.inorder,erase_append_right _ fun hm => hnot (mem_append_left _ hm), erase_cons_head]
    simp
  cases hcol : col with
  | red =>
    refine ⟨t1,plug gs k,?_,shows_plug.mpr (by simpa using hsp.shown),hsp.done hcol,herase⟩
    simp [remove,h1,hcol]
  | black =>
    obtain ⟨n,hr⟩ := hsp.lacking hcol
    have hlen := length_le_plug gs k
    rw [herase,length_erase_of_mem hz] at hlen
    have hpos := length_pos_of_mem hz
    have hrounds : gs.length + 2 ≤ fuel := by omega
    obtain ⟨t2,w,h2,hs2,hrb2,hin2⟩ := removeFixup_spec hsp.shown hr (.inr hrounds)
    refine ⟨t2,w,?_,hs2,hrb2,hin2.trans herase⟩
    simp [remove,h1,hcol,h2]

end Rucux.Ds
