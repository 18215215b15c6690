import Rucux.Ds.RbTree

namespace Rucux.Ds
open Lib Lib.ColorTree RbNode RbTree

variable {t : RbTree} {fs : List (Frame Nat)} {f g : Frame Nat} {i : Side} {c d : Color}
  {s a b e w : ColorTree Nat} {x y z n fuel : Nat}

theorem liftParent_spec (h : Shows t (⟨i,c,y,b⟩ :: ⟨i,d,x,e⟩ :: fs) s) (hs : s ≠ .nil) :
    ∃ t', t.liftParent i (top s) = some t' ∧ Shows t' fs (join i .black s y (join i .red b x e)) := by
  obtain ⟨j,k,u,l,rfl⟩ := eq_join i hs
  have hz := h.cell
  obtain ⟨t1,h1,hs1⟩ := setColor_spec h.parent .black
  have hp := hs1.cell
  obtain ⟨t2,h2,hs2⟩ := setColor_spec hs1.parent .red
  rw [← join_flip,← join_flip (s := i) (c := .black)] at hs2
  obtain ⟨t3,h3,hs3⟩ := rotate_spec hs2
  rw [join_flip,join_flip] at hs3
  refine ⟨t3,?_,hs3⟩
  simp only [liftParent,top_join,hz,facing_parent,up_cons,h1,hp,h2,h3,
    Option.bind_eq_bind,Option.bind_some]

theorem insertRound_recolor (h : Shows t (f :: g :: fs) s) (hu : g.sibling.color = .red) :
    ∃ t', t.insertRound (top s) f.elem = some (g.elem,t') ∧
      Shows t' fs (join g.side .red (join f.side .black s f.elem f.sibling) g.elem
        (g.sibling.paint .black)) := by
  have hp := h.above.2.1
  have hg := h.above.2.2.2.2.1
  have hside := (shows_fill.mpr h).top_ne_sibling (.inr (ne_nil_of_red hu))
  rw [Frame.fill,top_join] at hside
  have hred := isRed_spec h.parent.parent.far
  obtain ⟨t1,h1,hs1⟩ := setColor_spec h.parent .black
  obtain ⟨j,k,u,l,hsib⟩ := eq_join .left (ne_nil_of_red hu)
  have hs1' := hs1.parent.far
  rw [hsib] at hs1'
  obtain ⟨t2,h2,hs2⟩ := setColor_spec hs1' .black
  obtain ⟨t3,h3,hs3⟩ := setColor_spec hs2.parentFar .red
  refine ⟨t3,?_,?_⟩
  · have hy : top g.sibling = u := by rw [hsib,top_join]
    simp only [insertRound,hp,hg,facing_parent,up_cons,side_facing hside,facing_child_flip,hred,hu,
      h1,hy ▸ h2,h3,Option.bind_eq_bind,Option.bind_some]
    rfl
  · rw [hsib,paint_join]
    exact hs3

theorem insertRound_rotate (h : Shows t (f :: g :: fs) s) (hi : Inserting (f :: g :: fs) s n)
    (hf : f.color = .red) (hu : g.sibling.color = .black) :
    ∃ t' k gs, t.insertRound (top s) f.elem = some (top k,t') ∧ k ≠ .nil ∧ Shows t' gs k ∧
      (∀ f ∈ gs.head?, f.color = .black) ∧ (plug gs k).RedBlack ∧
      (plug gs k).inorder = (plug (f :: g :: fs) s).inorder := by
  have hs : s ≠ .nil := ne_nil_of_red hi.red
  have hp := h.above.2.1
  have hg := h.above.2.2.2.2.1
  have hne := h.top_ne_sibling (.inl hs)
  have hside := (shows_fill.mpr h).top_ne_sibling (.inl join_ne_nil)
  rw [Frame.fill,top_join] at hside
  have hred := isRed_spec h.parent.parent.far
  obtain ⟨i,c,y,b⟩ := f
  obtain ⟨i',d,x,e⟩ := g
  obtain rfl : c = .red := hf
  rcases i'.eq_or_flip i with rfl | rfl
  · obtain ⟨t1,h1,hs1⟩ := liftParent_spec h hs
    refine ⟨t1,s,_,?_,hs,hs1.near,?_,hi.outerCase rfl hu,?_⟩
    · simp only [insertRound,hp,hg,facing_parent,up_cons,side_facing hside,facing_child_flip,
        hred,hu,hne,h1,Option.bind_eq_bind,Option.bind_some]
      rfl
    · simp
    · refine inorder_plug_congr fs ?_
      cases i <;> simp [Frame.fill,join,inorder]
  obtain ⟨j,k,u,l,rfl⟩ := eq_join i' hs
  obtain rfl : j = .red := by simpa using hi.red
  have hturn := h.parent
  rw [join_flip] at hturn
  obtain ⟨t1,h1,hs1⟩ := rotate_spec hturn
  obtain ⟨t2,h2,hs2⟩ := liftParent_spec hs1.near join_ne_nil
  rw [top_join] at h2
  refine ⟨t2,join i' .red b y k,_,?_,join_ne_nil,hs2.near,?_,hi.innerCase rfl hu,?_⟩
  · simp only [insertRound,hp,hg,facing_parent,up_cons,side_facing hside,facing_child_flip,
      hred,hu,facing_flip,h1,h2,top_join,Option.bind_eq_bind,Option.bind_some]
    rfl
  · simp
  · refine inorder_plug_congr fs ?_
    cases i' <;> simp [Frame.fill,join,inorder,Side.flip]

theorem insertFixup_last (h : Shows t fs s) (hs : s ≠ .nil) (hb : ∀ f ∈ fs.head?, f.color = .black) :
    ∃ t', insertFixup (fuel+1) t (top s) = some t' ∧ Shows t' [] ((plug fs s).paint .black) := by
  have hred : t.isRed (up fs) = some false := by
    cases fs with
    | nil => rfl
    | cons f fs =>
      have hc := isRed_spec (shows_fill.mpr h)
      simpa [Frame.fill,hb f (by simp)] using hc
  have hroot : Shows t [] (plug fs s) := shows_plug.mpr (by simpa using h)
  obtain ⟨j,k,u,l,hj⟩ := eq_join .left (plug_ne_nil fs hs)
  rw [hj] at hroot ⊢
  obtain ⟨t',h1,hs'⟩ := setColor_spec hroot .black
  refine ⟨t',?_,by rwa [paint_join]⟩
  have htop : t.root = u := hroot.above.trans top_join
  obtain ⟨c,a,x,b,rfl⟩ := eq_join .left hs
  simp [insertFixup,h.cell,hred,htop,h1]

theorem insertFixup_spec (h : Shows t fs s) (hi : Inserting fs s n) (hfuel : fs.length < fuel) :
    ∃ t' w, insertFixup fuel t (top s) = some t' ∧ Shows t' [] w ∧ w.RedBlack ∧
      w.inorder = (plug fs s).inorder := by
  -- every round that goes on is two frames further up
  induction fuel generalizing t fs s n with
  | zero => simp at hfuel
  | succ fuel ih =>
    by_cases hb : ∀ f ∈ fs.head?, f.color = .black
    · obtain ⟨t',h1,hs1⟩ := insertFixup_last h (ne_nil_of_red hi.red) hb
      exact ⟨t',_,h1,hs1,hi.finish hb,inorder_paint _ _⟩
    obtain ⟨f,gs,rfl,hf⟩ : ∃ f gs, fs = f :: gs ∧ f.color = .red := by
      cases fs with
      | nil => simp at hb
      | cons f gs =>
        refine ⟨f,gs,rfl,?_⟩
        cases hc : f.color <;> simp_all
    obtain ⟨g,gs,rfl,-⟩ := hi.parent hf
    have hred : t.isRed f.elem = some true := by
      have hc := isRed_spec (shows_fill.mpr h)
      simpa [Frame.fill,hf] using hc
    have hround : insertFixup (fuel+1) t (top s) =
        (t.insertRound (top s) f.elem).bind fun r => insertFixup fuel r.2 r.1 := by
      obtain ⟨c,a,x,b,rfl⟩ := eq_join .left (ne_nil_of_red hi.red)
      simp [insertFixup,h.cell,hred]
    simp only [List.length_cons] at hfuel
    cases hu : g.sibling.color with
    | red =>
      obtain ⟨t1,h1,hs1⟩ := insertRound_recolor h hu
      obtain ⟨t',w,h2,hw,hrb,hin⟩ := ih hs1 (hi.recolor hf hu) (by omega)
      refine ⟨t',w,?_,hw,hrb,hin.trans ?_⟩
      · rw [hround,h1,Option.bind_some,← h2,top_join]
      refine inorder_plug_congr gs ?_
      simp only [Frame.fill]
      cases f.side <;> cases g.side <;> simp [join,inorder,inorder_paint]
    | black =>
      obtain ⟨t1,k,hs,h1,hk,hs1,hhead,hrb,hin⟩ := insertRound_rotate h hi hf hu
      obtain ⟨fuel,rfl⟩ : ∃ m, fuel = m+1 := ⟨fuel-1,by omega⟩
      obtain ⟨t2,h2,hs2⟩ := insertFixup_last hs1 hk hhead
      rw [paint_self hrb.1] at hs2
      exact ⟨t2,_,by rw [hround,h1,Option.bind_some,h2],hs2,hrb,hin⟩

/-- A three-way comparison for which `cmp x y ≤ 0` is a total preorder. -/
structure TotalPreorder (cmp : Nat → Nat → Int) : Prop where
  swap : ∀ x y, cmp x y < 0 ↔ 0 < cmp y x
  trans : ∀ x y z, cmp x y ≤ 0 → cmp y z ≤ 0 → cmp x z ≤ 0

theorem TotalPreorder.lt_of_lt_of_le {cmp : Nat → Nat → Int} (h : TotalPreorder cmp)
    (hlt : 0 < cmp x z) (hle : cmp x y ≤ 0) : 0 < cmp y z := by
  have := h.trans x y z hle
  omega

def Sorted (cmp : Nat → Nat → Int) (xs : List Nat) : Prop := xs.Pairwise fun x y => cmp x y ≤ 0

/-- The hole `fs` is after all nodes not above `z` and before the others. -/
def Fits (cmp : Nat → Nat → Int) (z : Nat) (fs : List (Frame Nat)) : Prop :=
  (∀ y ∈ before fs, cmp y z ≤ 0) ∧ ∀ y ∈ after fs, 0 < cmp y z

variable {cmp : Nat → Nat → Int}

theorem descend_spec (hc : TotalPreorder cmp) (h : Shows t fs s)
    (hsorted : Sorted cmp (plug fs s).inorder) (hz : Fits cmp z fs)
    (hfuel : s.elems.length < fuel) :
    ∃ gs, plug gs .nil = plug fs s ∧ t.descend cmp z fuel (up fs) (top s) = some (up gs) ∧
      Shows t gs .nil ∧ Fits cmp z gs := by
  induction s generalizing fs fuel with
  | nil =>
    obtain ⟨fuel,rfl⟩ : ∃ m, fuel = m+1 := ⟨fuel-1,by omega⟩
    exact ⟨fs,rfl,by simp [descend,top],h,hz⟩
  | node c l x r ihl ihr =>
    obtain ⟨fuel,rfl⟩ : ∃ m, fuel = m+1 := ⟨fuel-1,by omega⟩
    simp only [elems,List.length_cons,List.length_append] at hfuel
    obtain ⟨hx,hcell,-⟩ := h.rep
    have hsub : Sorted cmp (l.inorder ++ x :: r.inorder) := by
      rw [inorder_plug] at hsorted
      exact (List.pairwise_append.mp (List.pairwise_append.mp hsorted).1).2.1
    obtain ⟨-,hxr,hleft⟩ := List.pairwise_append.mp hsub
    have hright : ∀ y ∈ r.inorder, cmp x y ≤ 0 := (List.pairwise_cons.mp hxr).1
    by_cases hlt : cmp z x < 0
    · have hz' : Fits cmp z (⟨.left,c,x,r⟩ :: fs) := by
        refine ⟨by simpa [before] using hz.1,?_⟩
        simp only [after,List.cons_append,List.mem_cons,List.mem_append]
        rintro y (rfl | hy | hy)
        · exact (hc.swap _ _).mp hlt
        · exact hc.lt_of_lt_of_le ((hc.swap _ _).mp hlt) (hright y hy)
        · exact hz.2 y hy
      have hl : l.elems.length < fuel := by omega
      obtain ⟨gs,h1,h2,h3,h4⟩ := ihl (h.near (i := .left)) hsorted hz' hl
      refine ⟨gs,h1,?_,h3,h4⟩
      simpa [descend,top,hx,hcell,hlt] using h2
    have hxz : cmp x z ≤ 0 := by
      have := hc.swap z x
      omega
    have hz' : Fits cmp z (⟨.right,c,x,l⟩ :: fs) := by
      refine ⟨?_,by simpa [after] using hz.2⟩
      simp only [before,List.mem_append,List.mem_singleton]
      rintro y (hy | hy | rfl)
      · exact hz.1 y hy
      · exact hc.trans y x z (hleft y hy x (by simp)) hxz
      · exact hxz
    have hr : r.elems.length < fuel := by omega
    obtain ⟨gs,h1,h2,h3,h4⟩ := ihr (h.far (i := .left)) hsorted hz' hr
    refine ⟨gs,h1,?_,h3,h4⟩
    simpa [descend,top,hx,hcell,hlt] using h2

theorem nodup_plug_node (h : (plug fs .nil).inorder.Nodup) (hn : z ∉ (plug fs .nil).inorder) :
    (plug fs (.node c .nil z .nil)).inorder.Nodup := by
  simp only [inorder_plug,inorder,List.nil_append,List.append_nil] at h hn ⊢
  rw [List.append_assoc,List.singleton_append]
  exact List.nodup_middle.mpr (List.nodup_cons.mpr ⟨hn,h⟩)

theorem link_spec {side : Side} (h : Shows t fs .nil) (hz : z ≠ 0)
    (hn : z ∉ (plug fs .nil).inorder) (hm : t.mem z = some ⟨up fs,0,0,.red⟩)
    (hside : ∀ f ∈ fs.head?, f.side = side) :
    ∃ t', (if up fs = 0 then some { t with root := z } else t.write (up fs) (·.setChild side z)) =
      some t' ∧ Shows t' fs (.node .red .nil z .nil) := by
  have hd := nodup_plug_node (c := .red) h.distinct hn
  cases fs with
  | nil => exact ⟨_,rfl,rfl,⟨hz,hm,trivial,trivial⟩,hd⟩
  | cons f fs =>
    obtain rfl : f.side = side := hside f (by simp)
    have hzn : z ∉ outer (f :: fs) := by
      rwa [← mem_elems,(elems_plug _ _).mem_iff] at hn
    obtain ⟨h1,h2,h3,h4⟩ := h.above
    have hnd : (outer (f :: fs)).Nodup := h.nodup
    simp only [outer,List.nodup_cons,List.mem_append,not_or,List.mem_cons] at hnd hzn
    refine ⟨t.put f.elem (facing f.side (up fs) z (top f.sibling) f.color),?_,
      ⟨h1,put_same _ _ _,?_,?_⟩,⟨hz,?_,trivial,trivial⟩,hd⟩
    · rw [if_neg (by exact h1),up_cons,write_eq h2,setChild_facing]
    · exact h3.congr (by grind)
    · exact h4.congr rfl (by grind)
    rw [put_other _ hzn.1]
    exact hm

theorem Fits.side (hc : TotalPreorder cmp) (h : Fits cmp z fs) :
    ∀ f ∈ fs.head?, f.side = (if cmp z (up fs) < 0 then .left else .right) := by
  cases fs with
  | nil => simp
  | cons f fs =>
    have hswap := hc.swap z f.elem
    have hb := h.1 f.elem
    have ha := h.2 f.elem
    simp only [List.head?_cons,Option.mem_some_iff,forall_eq']
    cases hf : f.side <;> simp only [hf,before,after] at ha hb
    · have hlt : cmp z (up (f :: fs)) < 0 := hswap.mpr (ha (by simp))
      rw [if_pos hlt]
    have hge : ¬cmp z (up (f :: fs)) < 0 := by
      have hle := hb (by simp)
      rw [up_cons]
      omega
    rw [if_neg hge]

theorem insert_spec (hc : TotalPreorder cmp) (h : Shows t [] w) (hrb : w.RedBlack)
    (hsorted : Sorted cmp w.inorder) (hz : z ≠ 0) (hn : z ∉ w.inorder)
    (hfuel : w.inorder.length < fuel) :
    ∃ t' w' l r, t.insert fuel cmp z = some t' ∧ Shows t' [] w' ∧ w'.RedBlack ∧
      w.inorder = l ++ r ∧ w'.inorder = l ++ z :: r ∧
      (∀ y ∈ l, cmp y z ≤ 0) ∧ ∀ y ∈ r, 0 < cmp y z := by
  have hlen : w.elems.length = w.inorder.length := (elems_perm w).length_eq
  have h0 : Shows (t.put z ⟨0,0,0,.red⟩) [] w := h.congr rfl fun x hx => put_other _ (by rintro rfl; exact hn hx)
  obtain ⟨gs,hgs,hdesc,hs,hfits⟩ := descend_spec hc h0 hsorted (z := z)
    ⟨by simp [before],by simp [after]⟩ (hlen ▸ hfuel)
  have hgs' : plug gs .nil = w := hgs
  subst hgs'
  -- the parent link of the new node, then the link to it
  have h1 : Shows ((t.put z ⟨0,0,0,.red⟩).put z ⟨up gs,0,0,.red⟩) gs .nil := by
    refine hs.congr rfl fun x hx => put_other _ ?_
    rintro rfl
    exact hn hx
  obtain ⟨t2,h2,hs2⟩ := link_spec h1 hz hn (put_same _ _ _) (hfits.side hc)
  obtain ⟨n,hroom,-,hbal⟩ := hrb.room
  obtain rfl : n = 0 := hbal
  have hi : Inserting gs (.node .red .nil z .nil) 0 :=
    ⟨rfl,⟨fun _ => ⟨rfl,rfl⟩,trivial,trivial⟩,⟨0,rfl,rfl,rfl⟩,hroom⟩
  have hle := length_le_plug gs .nil
  have hrounds : gs.length < fuel := by omega
  obtain ⟨t3,w3,h3,hs3,hrb3,hin3⟩ := insertFixup_spec hs2 hi hrounds
  refine ⟨t3,w3,before gs,after gs,?_,hs3,hrb3,by simp [inorder_plug,inorder],?_,hfits⟩
  · have hroot : t.root = top (plug gs .nil) := h.above
    rw [up_nil] at hdesc
    simp only [RbTree.insert,put_root,hroot,hdesc,write_eq (put_same _ _ _),h2,
      Option.bind_eq_bind,Option.bind_some]
    exact h3
  · rw [hin3,inorder_plug]
    simp [inorder]

theorem Sorted.insert {l r : List Nat} {z : Nat} (hc : TotalPreorder cmp)
    (h : Sorted cmp (l ++ r)) (hl : ∀ y ∈ l, cmp y z ≤ 0) (hr : ∀ y ∈ r, 0 < cmp y z) :
    Sorted cmp (l ++ z :: r) := by
  obtain ⟨h1,h2,h3⟩ := List.pairwise_append.mp h
  refine List.pairwise_append.mpr ⟨h1,List.pairwise_cons.mpr ⟨fun y hy => ?_,h2⟩,?_⟩
  · exact Int.le_of_lt ((hc.swap z y).mpr (hr y hy))
  intro y hy x hx
  rcases List.mem_cons.mp hx with rfl | hx
  · exact hl y hy
  · exact h3 y hy x hx

end Rucux.Ds
