import Mathlib.Algebra.Order.Ring.Nat
import Mathlib.Data.List.Perm.Basic
import Mathlib.Data.List.Nodup

/-! Red-black trees and contexts in them. A context is the list of the nodes above a hole, from the innermost
on, each with the subtree on its other side. -/

namespace Rucux.Lib
open scoped List

inductive Color where
  | red
  | black
  deriving DecidableEq

def Color.weight : Color → Nat
  | .red => 0
  | .black => 1

inductive Side where
  | left
  | right
  deriving DecidableEq

def Side.flip : Side → Side
  | .left => .right
  | .right => .left

@[simp] theorem Side.flip_flip (s : Side) : s.flip.flip = s := by cases s <;> rfl

theorem Side.eq_or_flip (s i : Side) : i = s ∨ i = s.flip := by
  cases s <;> cases i <;> simp [flip]

inductive ColorTree (α : Type) where
  | nil
  | node (color : Color) (left : ColorTree α) (elem : α) (right : ColorTree α)

namespace ColorTree
variable {α : Type} {t l r a b : ColorTree α} {c d : Color} {x y : α} {s : Side} {n m : Nat}

def color : ColorTree α → Color
  | nil => .black
  | node c _ _ _ => c

def inorder : ColorTree α → List α
  | nil => []
  | node _ l x r => l.inorder ++ x :: r.inorder

def paint (c : Color) : ColorTree α → ColorTree α
  | nil => nil
  | node _ l x r => node c l x r

def join (s : Side) (c : Color) (near : ColorTree α) (x : α) (far : ColorTree α) : ColorTree α :=
  match s with
  | .left => node c near x far
  | .right => node c far x near

def Balanced : ColorTree α → Nat → Prop
  | nil, n => n = 0
  | node c l _ r, n => ∃ m, n = m + c.weight ∧ l.Balanced m ∧ r.Balanced m

def Fine : ColorTree α → Prop
  | nil => True
  | node c l _ r => (c = .red → l.color = .black ∧ r.color = .black) ∧ l.Fine ∧ r.Fine

def RedBlack (t : ColorTree α) : Prop := t.color = .black ∧ t.Fine ∧ ∃ n, t.Balanced n

def height : ColorTree α → Nat
  | nil => 0
  | node _ l _ r => max l.height r.height + 1

theorem Balanced.height_le (hb : t.Balanced n) (hf : t.Fine) : t.height + t.color.weight ≤ 2*n + 1 := by
  induction t generalizing n with
  | nil => simp [height,color,Color.weight]
  | node c l x r ihl ihr =>
    obtain ⟨m,rfl,hl,hr⟩ := hb
    obtain ⟨hred,hfl,hfr⟩ := hf
    have hl := ihl hl hfl
    have hr := ihr hr hfr
    simp only [height,color]
    cases c with
    | black => simp only [Color.weight]; omega
    | red =>
      rw [(hred rfl).1,Color.weight] at hl
      rw [(hred rfl).2,Color.weight] at hr
      simp only [Color.weight]
      omega

theorem Balanced.pow_le (hb : t.Balanced n) : 2^n ≤ t.inorder.length + 1 := by
  induction t generalizing n with
  | nil => simp_all [Balanced]
  | node c l x r ihl ihr =>
    obtain ⟨m,rfl,hl,hr⟩ := hb
    have hl := ihl hl
    have hr := ihr hr
    simp only [inorder,List.length_append,List.length_cons]
    cases c <;> simp only [Color.weight,Nat.add_zero,Nat.pow_succ] <;> omega

@[simp] theorem color_join : (join s c a x b).color = c := by cases s <;> rfl

@[simp] theorem join_ne_nil : join s c a x b ≠ nil := by cases s <;> simp [join]

@[simp] theorem paint_join : (join s c a x b).paint d = join s d a x b := by cases s <;> rfl

theorem balanced_join :
    (join s c a x b).Balanced n ↔ ∃ m, n = m + c.weight ∧ a.Balanced m ∧ b.Balanced m := by
  cases s
  · rfl
  · constructor <;> exact fun ⟨m,h1,h2,h3⟩ => ⟨m,h1,h3,h2⟩

theorem fine_join : (join s c a x b).Fine ↔
      (c = .red → a.color = .black ∧ b.color = .black) ∧ a.Fine ∧ b.Fine := by
  cases s
  · rfl
  simp only [join,Fine]
  tauto

theorem join_flip : join s.flip c a x b = join s c b x a := by cases s <;> rfl

theorem paint_self (h : t.color = c) : t.paint c = t := by
  cases t with
  | nil => rfl
  | node d l x r => rw [← h]; rfl

theorem color_paint (t : ColorTree α) : (t.paint .black).color = .black := by cases t <;> rfl

theorem inorder_paint (t : ColorTree α) (c : Color) : (t.paint c).inorder = t.inorder := by
  cases t <;> rfl

theorem inorder_rotate {e : ColorTree α} :
    (join s d (join s c a x b) y e).inorder = (join s c a x (join s d b y e)).inorder := by
  cases s <;> simp [join,inorder]

theorem Fine.paint (h : t.Fine) : (t.paint .black).Fine := by
  cases t with
  | nil => trivial
  | node c l x r => exact ⟨nofun,h.2⟩

theorem eq_join (s : Side) (h : t ≠ nil) : ∃ c a x b, t = join s c a x b := by
  cases t with
  | nil => exact absurd rfl h
  | node c l x r =>
    cases s
    · exact ⟨c,l,x,r,rfl⟩
    · exact ⟨c,r,x,l,rfl⟩

theorem ne_nil_of_red (h : t.color = .red) : t ≠ nil := by
  rintro rfl
  cases h

theorem Balanced.ne_nil (h : t.Balanced (n+1)) : t ≠ nil := by
  rintro rfl
  simp [Balanced] at h

theorem Balanced.blacken (h : t.Balanced n) (hc : t.color = .red) : (t.paint .black).Balanced (n+1) := by
  cases t with
  | nil => cases hc
  | node c l x r =>
    obtain rfl : c = .red := hc
    obtain ⟨m,hm,hl,hr⟩ := h
    obtain rfl : n = m := hm
    exact ⟨n,rfl,hl,hr⟩

theorem redBlack_paint (hf : (t.paint .black).Fine) (hb : t.Balanced n) : (t.paint .black).RedBlack := by
  refine ⟨color_paint t,hf,?_⟩
  cases hc : t.color with
  | red => exact ⟨n+1,hb.blacken hc⟩
  | black => exact ⟨n,by rw [paint_self hc]; exact hb⟩

/-- A node above the hole, which is on its side `side`. -/
structure Frame (α : Type) where
  side : Side
  color : Color
  elem : α
  sibling : ColorTree α

def Frame.fill (f : Frame α) (t : ColorTree α) : ColorTree α := join f.side f.color t f.elem f.sibling

def plug : List (Frame α) → ColorTree α → ColorTree α
  | [], t => t
  | f :: fs, t => plug fs (f.fill t)

theorem plug_append (fs gs : List (Frame α)) (t : ColorTree α) :
    plug (fs ++ gs) t = plug gs (plug fs t) := by
  induction fs generalizing t with
  | nil => rfl
  | cons f fs ih => exact ih _

theorem plug_ne_nil (fs : List (Frame α)) (h : t ≠ nil) : plug fs t ≠ nil := by
  induction fs generalizing t with
  | nil => exact h
  | cons f fs ih => exact ih join_ne_nil

def before : List (Frame α) → List α
  | [] => []
  | f :: fs => before fs ++ match f.side with
    | .left => []
    | .right => f.sibling.inorder ++ [f.elem]

def after : List (Frame α) → List α
  | [] => []
  | f :: fs => (match f.side with
    | .left => f.elem :: f.sibling.inorder
    | .right => []) ++ after fs

theorem inorder_plug (fs : List (Frame α)) (t : ColorTree α) :
    (plug fs t).inorder = before fs ++ t.inorder ++ after fs := by
  induction fs generalizing t with
  | nil => simp [plug,before,after]
  | cons f fs ih =>
    obtain ⟨side,c,x,sib⟩ := f
    cases side <;> simp [plug,ih,Frame.fill,join,before,after,inorder]

theorem inorder_plug_congr (fs : List (Frame α)) (h : t.inorder = a.inorder) :
    (plug fs t).inorder = (plug fs a).inorder := by
  rw [inorder_plug,inorder_plug,h]

def elems : ColorTree α → List α
  | nil => []
  | node _ l x r => x :: (l.elems ++ r.elems)

def outer : List (Frame α) → List α
  | [] => []
  | f :: fs => f.elem :: (f.sibling.elems ++ outer fs)

theorem outer_append (fs gs : List (Frame α)) : outer (fs ++ gs) = outer fs ++ outer gs := by
  induction fs with
  | nil => rfl
  | cons f fs ih => simp [outer,ih]

theorem elems_perm (t : ColorTree α) : t.elems ~ t.inorder := by
  induction t with
  | nil => exact .refl _
  | node c l x r ihl ihr =>
    exact ((ihl.append ihr).cons x).trans List.perm_middle.symm

theorem elems_join : (join s c a x b).elems ~ x :: (a.elems ++ b.elems) := by
  cases s
  · exact .refl _
  · exact List.perm_append_comm.cons x

theorem elems_fill (f : Frame α) (fs : List (Frame α)) (t : ColorTree α) :
    (f.fill t).elems ++ outer fs ~ t.elems ++ outer (f :: fs) := by
  refine (elems_join.append_right (outer fs)).trans ?_
  simp only [outer,List.cons_append,List.append_assoc]
  exact List.perm_middle.symm

theorem elems_plug (fs : List (Frame α)) (t : ColorTree α) : (plug fs t).elems ~ t.elems ++ outer fs := by
  induction fs generalizing t with
  | nil => simp [plug,outer]
  | cons f fs ih => exact (ih _).trans (elems_fill f fs t)

theorem length_le_plug (fs : List (Frame α)) (t : ColorTree α) :
    t.inorder.length + fs.length ≤ (plug fs t).inorder.length := by
  induction fs generalizing t with
  | nil => simp [plug]
  | cons f fs ih =>
    have h := ih (f.fill t)
    have hf : t.inorder.length + 1 ≤ (f.fill t).inorder.length := by
      rw [Frame.fill]
      cases f.side <;> simp [join,inorder]
    simp only [plug,List.length_cons]
    omega

theorem mem_elems : x ∈ t.elems ↔ x ∈ t.inorder := (elems_perm t).mem_iff

theorem exists_plug (h : x ∈ t.inorder) : ∃ fs c l r, t = plug fs (node c l x r) := by
  induction t with
  | nil => simp [inorder] at h
  | node c l y r ihl ihr =>
    simp only [inorder,List.mem_append,List.mem_cons] at h
    rcases h with h | rfl | h
    · obtain ⟨fs,d,a,b,rfl⟩ := ihl h
      exact ⟨fs ++ [⟨.left,c,y,r⟩],d,a,b,by rw [plug_append]; rfl⟩
    · exact ⟨[],c,l,r,rfl⟩
    · obtain ⟨fs,d,a,b,rfl⟩ := ihr h
      exact ⟨fs ++ [⟨.right,c,y,l⟩],d,a,b,by rw [plug_append]; rfl⟩

/-- A context that a fine subtree of colour `c` and height `n` completes to a red-black tree. -/
def Room : List (Frame α) → Color → Nat → Prop
  | [], c, _ => c = .black
  | f :: fs, c, n => f.sibling.Fine ∧ f.sibling.Balanced n ∧
      (f.color = .red → c = .black ∧ f.sibling.color = .black) ∧ Room fs f.color (n + f.color.weight)

variable {fs : List (Frame α)}

theorem Room.black (h : Room fs c n) : Room fs .black n := by
  cases fs with
  | nil => rfl
  | cons f fs => exact ⟨h.1,h.2.1,fun hc => ⟨rfl,(h.2.2.1 hc).2⟩,h.2.2.2⟩

theorem Room.redBlack (h : Room fs t.color n) (hf : t.Fine) (hb : t.Balanced n) :
    (plug fs t).RedBlack := by
  induction fs generalizing t n with
  | nil => exact ⟨h,hf,n,hb⟩
  | cons f fs ih =>
    refine ih (n := n + f.color.weight) ?_ ?_ ?_
    · rw [Frame.fill,color_join]
      exact h.2.2.2
    · exact fine_join.mpr ⟨h.2.2.1,hf,h.1⟩
    · exact balanced_join.mpr ⟨n,rfl,hb,h.2.1⟩

theorem RedBlack.room (h : (plug fs t).RedBlack) : ∃ n, Room fs t.color n ∧ t.Fine ∧ t.Balanced n := by
  induction fs generalizing t with
  | nil =>
    obtain ⟨hc,hf,n,hb⟩ := h
    exact ⟨n,hc,hf,hb⟩
  | cons f fs ih =>
    obtain ⟨m,hr,hf,hb⟩ := ih h
    obtain ⟨n,rfl,ht,hs⟩ := balanced_join.mp hb
    obtain ⟨hred,hft,hfs⟩ := fine_join.mp hf
    rw [Frame.fill,color_join] at hr
    exact ⟨n,⟨hfs,hs,hred,hr⟩,hft,ht⟩

structure Inserting (fs : List (Frame α)) (t : ColorTree α) (n : Nat) : Prop where
  red : t.color = .red
  fine : t.Fine
  balanced : t.Balanced n
  room : Room fs .black n

theorem Inserting.finish (h : Inserting fs t n) (hf : ∀ f ∈ fs.head?, f.color = .black) :
    ((plug fs t).paint .black).RedBlack := by
  cases fs with
  | nil => exact redBlack_paint h.fine.paint h.balanced
  | cons f fs =>
    have hc : f.color = .black := hf f (by simp)
    have hroom := h.room
    have hr : Room (f :: fs) t.color n :=
      ⟨hroom.1,hroom.2.1,fun hred => (by rw [hc] at hred; cases hred),hroom.2.2.2⟩
    have hrb := hr.redBlack h.fine h.balanced
    rwa [paint_self hrb.1]

variable {f g : Frame α}

theorem Inserting.parent (h : Inserting (f :: fs) t n) (hf : f.color = .red) :
    ∃ g gs, fs = g :: gs ∧ g.color = .black ∧ f.sibling.color = .black ∧ f.sibling.Fine ∧
      f.sibling.Balanced n ∧ g.sibling.Fine ∧ g.sibling.Balanced n ∧ Room gs .black (n+1) := by
  obtain ⟨h1,h2,h3,h4⟩ := h.room
  rw [hf] at h4
  cases fs with
  | nil => cases h4
  | cons g gs =>
    obtain ⟨h5,h6,h7,h8⟩ := h4
    have hg : g.color = .black := by
      cases hc : g.color with
      | red => cases (h7 hc).1
      | black => rfl
    rw [hg] at h8
    exact ⟨g,gs,rfl,hg,(h3 hf).2,h1,h2,h5,h6,h8⟩

section
variable (h : Inserting (f :: g :: fs) t n) (hf : f.color = .red)
include h hf

theorem Inserting.recolor (hu : g.sibling.color = .red) :
    Inserting fs (join g.side .red (join f.side .black t f.elem f.sibling) g.elem
      (g.sibling.paint .black)) (n+1) := by
  obtain ⟨g',gs,heq,hg,hfc,h1,h2,h3,h4,h5⟩ := h.parent hf
  cases heq
  refine ⟨color_join,?_,?_,h5⟩
  · refine fine_join.mpr ⟨fun _ => ⟨color_join,color_paint _⟩,?_,h3.paint⟩
    exact fine_join.mpr ⟨nofun,h.fine,h1⟩
  · refine balanced_join.mpr ⟨n+1,rfl,?_,h4.blacken hu⟩
    exact balanced_join.mpr ⟨n,rfl,h.balanced,h2⟩

theorem Inserting.outerCase (hu : g.sibling.color = .black) : (plug fs (join g.side .black t f.elem
      (join g.side .red f.sibling g.elem g.sibling))).RedBlack := by
  obtain ⟨g',gs,heq,hg,hfc,h1,h2,h3,h4,h5⟩ := h.parent hf
  cases heq
  refine Room.redBlack (n := n+1) (by rw [color_join]; exact h5) ?_ ?_
  · refine fine_join.mpr ⟨nofun,h.fine,?_⟩
    exact fine_join.mpr ⟨fun _ => ⟨hfc,hu⟩,h1,h3⟩
  · refine balanced_join.mpr ⟨n,rfl,h.balanced,?_⟩
    exact balanced_join.mpr ⟨n,rfl,h2,h4⟩

end

theorem Inserting.innerCase (h : Inserting (f :: g :: fs) (join s c a x b) n)
    (hf : f.color = .red) (hu : g.sibling.color = .black) :
    (plug fs (join g.side .black (join g.side .red f.sibling f.elem a) x
      (join g.side .red b g.elem g.sibling))).RedBlack := by
  obtain ⟨g',gs,heq,hg,hfc,h1,h2,h3,h4,h5⟩ := h.parent hf
  cases heq
  obtain rfl : c = .red := by simpa using h.red
  obtain ⟨hred,hfa,hfb⟩ := fine_join.mp h.fine
  obtain ⟨m,hm,hba,hbb⟩ := balanced_join.mp h.balanced
  obtain rfl : n = m := hm
  refine Room.redBlack (n := n+1) (by rw [color_join]; exact h5) ?_ ?_
  · refine fine_join.mpr ⟨nofun,?_,?_⟩
    · exact fine_join.mpr ⟨fun _ => ⟨hfc,(hred rfl).1⟩,h1,hfa⟩
    · exact fine_join.mpr ⟨fun _ => ⟨(hred rfl).2,hu⟩,hfb,h3⟩
  refine balanced_join.mpr ⟨n,rfl,?_,?_⟩
  · exact balanced_join.mpr ⟨n,rfl,h2,hba⟩
  · exact balanced_join.mpr ⟨n,rfl,hbb,h4⟩

structure Removing (fs : List (Frame α)) (t : ColorTree α) (n : Nat) : Prop where
  fine : (t.paint .black).Fine
  balanced : t.Balanced n
  room : Room fs .black (n+1)

theorem Room.takeOut {k : ColorTree α} (h : Room fs c n) (hf : (join s c nil x k).Fine)
    (hb : (join s c nil x k).Balanced n) :
    (c = .red → (plug fs k).RedBlack) ∧ (c = .black → ∃ m, Removing fs k m) := by
  obtain ⟨hred,-,hfk⟩ := fine_join.mp hf
  obtain ⟨m,hm,-,hbk⟩ := balanced_join.mp hb
  constructor
  · rintro rfl
    obtain rfl : n = m := hm
    refine Room.redBlack ?_ hfk hbk
    rw [(hred rfl).2]
    exact h.black
  rintro rfl
  obtain rfl : n = m+1 := hm
  exact ⟨m,hfk.paint,hbk,h⟩

theorem Room.rename {gs : List (Frame α)} {k : ColorTree α}
    (h : Room (gs ++ ⟨s,d,x,k⟩ :: fs) c n) : Room (gs ++ ⟨s,d,y,k⟩ :: fs) c n := by
  induction gs generalizing c n with
  | nil => exact h
  | cons g gs ih => exact ⟨h.1,h.2.1,h.2.2.1,ih h.2.2.2⟩

theorem Removing.finish (h : Removing fs t n) (hc : t.color = .red) :
    (plug fs (t.paint .black)).RedBlack :=
  Room.redBlack (by rw [color_paint]; exact h.room) h.fine (h.balanced.blacken hc)

theorem Removing.atRoot (h : Removing [] t n) : (t.paint .black).RedBlack :=
  redBlack_paint h.fine h.balanced

theorem Removing.sibling (h : Removing (f :: fs) t n) : f.sibling ≠ nil := h.room.2.1.ne_nil

section
variable {far : ColorTree α} (h : Removing (f :: fs) t n)
include h

/-- A red sibling is rotated up, and its child is the new one. -/
theorem Removing.redSibling {near : ColorTree α} (hs : f.sibling = join f.side .red near x far) :
    Removing (⟨f.side,.red,f.elem,near⟩ :: ⟨f.side,.black,x,far⟩ :: fs) t n ∧ near.color = .black := by
  obtain ⟨h1,h2,h3,h4⟩ := h.room
  rw [hs] at h1 h2 h3
  obtain ⟨hred,hfn,hff⟩ := fine_join.mp h1
  obtain ⟨m,hm,hbn,hbf⟩ := balanced_join.mp h2
  obtain rfl : n+1 = m := hm
  have hf : f.color = .black := by
    cases hc : f.color with
    | red =>
      have hb := (h3 hc).2
      rw [color_join] at hb
      cases hb
    | black => rfl
  rw [hf] at h4
  refine ⟨⟨h.fine,h.balanced,hfn,hbn,fun _ => ⟨rfl,(hred rfl).1⟩,hff,hbf,fun hc => ?_,h4⟩,(hred rfl).1⟩
  cases hc

section
variable {near : ColorTree α} (ht : t.color = .black) (hs : f.sibling = join f.side .black near x far)
include ht hs

/-- A black sibling with black children is painted red, and the parent lacks a node. -/
theorem Removing.recolor (hn : near.color = .black) (hf : far.color = .black) :
    Removing fs (join f.side f.color t f.elem (join f.side .red near x far)) (n + f.color.weight) := by
  obtain ⟨h1,h2,h3,h4⟩ := h.room
  rw [hs] at h1 h2
  obtain ⟨-,hfn,hff⟩ := fine_join.mp h1
  obtain ⟨m,hm,hbn,hbf⟩ := balanced_join.mp h2
  obtain rfl : n = m := by simpa [Color.weight] using hm
  have hft : t.Fine := by
    have hp := h.fine
    rwa [paint_self ht] at hp
  refine ⟨?_,?_,?_⟩
  · rw [paint_join]
    refine fine_join.mpr ⟨nofun,hft,?_⟩
    exact fine_join.mpr ⟨fun _ => ⟨hn,hf⟩,hfn,hff⟩
  · refine balanced_join.mpr ⟨n,rfl,h.balanced,?_⟩
    exact balanced_join.mpr ⟨n,rfl,hbn,hbf⟩
  · rw [Nat.add_right_comm]
    exact h4.black

/-- With a red far child one rotation ends the fix-up. -/
theorem Removing.farCase (hf : far.color = .red) :
    (plug fs (join f.side f.color (join f.side .black t f.elem near) x (far.paint .black))).RedBlack := by
  obtain ⟨h1,h2,h3,h4⟩ := h.room
  rw [hs] at h1 h2 h3
  obtain ⟨-,hfn,hff⟩ := fine_join.mp h1
  obtain ⟨m,hm,hbn,hbf⟩ := balanced_join.mp h2
  obtain rfl : n = m := by simpa [Color.weight] using hm
  have hft : t.Fine := by
    have hp := h.fine
    rwa [paint_self ht] at hp
  refine Room.redBlack (by rw [color_join]; exact h4) ?_ ?_
  · refine fine_join.mpr ⟨fun _ => ⟨color_join,color_paint _⟩,?_,hff.paint⟩
    exact fine_join.mpr ⟨nofun,hft,hfn⟩
  · refine balanced_join.mpr ⟨n+1,rfl,?_,hbf.blacken hf⟩
    exact balanced_join.mpr ⟨n,rfl,h.balanced,hbn⟩

end

/-- With only a red near child, that child is rotated up first. -/
theorem Removing.nearCase {w : α} (hs : f.sibling = join f.side .black (join f.side .red a x b) w far)
    (hf : far.color = .black) :
    Removing ({ f with sibling := join f.side .black a x (join f.side .red b w far) } :: fs) t n := by
  obtain ⟨h1,h2,h3,h4⟩ := h.room
  rw [hs] at h1 h2 h3
  obtain ⟨-,hfn,hff⟩ := fine_join.mp h1
  obtain ⟨hred,hfa,hfb⟩ := fine_join.mp hfn
  obtain ⟨m,hm,hbn,hbf⟩ := balanced_join.mp h2
  obtain ⟨k,hk,hba,hbb⟩ := balanced_join.mp hbn
  obtain rfl : n = m := by simpa [Color.weight] using hm
  obtain rfl : n = k := hk
  refine ⟨h.fine,h.balanced,?_,?_,fun hc => ⟨rfl,color_join⟩,h4⟩
  · refine fine_join.mpr ⟨nofun,hfa,?_⟩
    exact fine_join.mpr ⟨fun _ => ⟨(hred rfl).2,hf⟩,hfb,hff⟩
  · refine balanced_join.mpr ⟨n,rfl,hba,?_⟩
    exact balanced_join.mpr ⟨n,rfl,hbb,hbf⟩

end

end ColorTree
end Rucux.Lib
