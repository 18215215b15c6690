import Rucux.Lib.Machine
import Rucux.Lib.RedBlack

/-!
The intrusive red-black tree: nodes in memory with links to both children and to the parent.
Following a null pointer, or one to no node, makes a call fail, and so does a loop that takes
more rounds than its `fuel`. The source writes each fix-up out for both sides; here a side is
a parameter of one definition.
-/

namespace Rucux.Ds
open Lib

/-- `rb_node`; 0 is the null pointer. -/
structure RbNode where
  parent : Nat
  left : Nat
  right : Nat
  color : Color
  deriving DecidableEq

namespace RbNode

def child (b : RbNode) : Side → Nat
  | .left => b.left
  | .right => b.right

def setChild (b : RbNode) (s : Side) (a : Nat) : RbNode :=
  match s with
  | .left => { b with left := a }
  | .right => { b with right := a }

end RbNode

structure RbTree where
  mem : Nat → Option RbNode
  root : Nat

namespace RbTree

def put (t : RbTree) (a : Nat) (b : RbNode) : RbTree :=
  { t with mem := Function.update t.mem a (some b) }

def write (t : RbTree) (a : Nat) (f : RbNode → RbNode) : Option RbTree :=
  (t.mem a).map fun b => t.put a (f b)

def setColor (t : RbTree) (a : Nat) (c : Color) : Option RbTree :=
  t.write a fun b => { b with color := c }

def setParent (t : RbTree) (a p : Nat) : Option RbTree :=
  if a = 0 then some t else t.write a fun b => { b with parent := p }

/-- The link from `p`, or from the root, to `u` now leads to `v`. Where the two sides of `p` are
told apart, side `s` is tried first. -/
def replaceChild (t : RbTree) (s : Side) (p u v : Nat) : Option RbTree :=
  if p = 0 then some { t with root := v }
  else do
    let b ← t.mem p
    if u = b.child s then t.write p (·.setChild s v) else t.write p (·.setChild s.flip v)

def rotate (t : RbTree) (s : Side) (x : Nat) : Option RbTree := do
  let nx ← t.mem x
  let y := nx.child s.flip
  let ny ← t.mem y
  let t ← t.write x (·.setChild s.flip (ny.child s))
  let t ← t.setParent (ny.child s) x
  let t ← t.write y fun b => { b with parent := nx.parent }
  let t ← t.replaceChild s nx.parent x y
  let t ← t.write y (·.setChild s x)
  t.write x fun b => { b with parent := y }

def rotateLeft (t : RbTree) (x : Nat) : Option RbTree := t.rotate .left x
def rotateRight (t : RbTree) (x : Nat) : Option RbTree := t.rotate .right x

def isRed (t : RbTree) (a : Nat) : Option Bool :=
  if a = 0 then some false else (t.mem a).map fun b => decide (b.color = .red)

def blacken (t : RbTree) (a : Nat) : Option RbTree :=
  if a = 0 then some t else t.setColor a .black

/-- The end of `insert_fixup` for an outer grandchild `z`. -/
def liftParent (t : RbTree) (s : Side) (z : Nat) : Option RbTree := do
  let nz ← t.mem z
  let t ← t.setColor nz.parent .black
  let np ← t.mem nz.parent
  let t ← t.setColor np.parent .red
  t.rotate s.flip np.parent

/-- One round of `insert_fixup` below a red parent `p`; it returns the next `z`. -/
def insertRound (t : RbTree) (z p : Nat) : Option (Nat × RbTree) := do
  let np ← t.mem p
  let ng ← t.mem np.parent
  let s : Side := if p = ng.left then .left else .right
  let y := ng.child s.flip
  if ← t.isRed y then
    let t ← t.setColor p .black
    let t ← t.setColor y .black
    let t ← t.setColor np.parent .red
    return (np.parent,t)
  else if z = np.child s.flip then
    let t ← t.rotate s p
    let t ← t.liftParent s p
    return (p,t)
  else
    let t ← t.liftParent s z
    return (z,t)

def insertFixup : Nat → RbTree → Nat → Option RbTree
  | 0, _, _ => none
  | fuel+1, t, z => do
    let nz ← t.mem z
    if ← t.isRed nz.parent then
      let r ← t.insertRound z nz.parent
      insertFixup fuel r.2 r.1
    else t.setColor t.root .black

/-- The walk of `insert` to the node below which `z` goes; `y` is the one before `x`. -/
def descend (t : RbTree) (cmp : Nat → Nat → Int) (z : Nat) : Nat → Nat → Nat → Option Nat
  | 0, _, _ => none
  | fuel+1, y, x =>
    if x = 0 then some y
    else do
      let nx ← t.mem x
      t.descend cmp z fuel x (if cmp z x < 0 then nx.left else nx.right)

def insert (t : RbTree) (fuel : Nat) (cmp : Nat → Nat → Int) (z : Nat) : Option RbTree := do
  let t := t.put z ⟨0,0,0,.red⟩
  let y ← t.descend cmp z fuel 0 t.root
  let t ← t.write z fun b => { b with parent := y }
  let t ← (if y = 0 then some { t with root := z }
    else t.write y (·.setChild (if cmp z y < 0 then .left else .right) z))
  insertFixup fuel t z

def transplant (t : RbTree) (u v : Nat) : Option RbTree := do
  let nu ← t.mem u
  let t ← t.replaceChild .left nu.parent u v
  t.setParent v nu.parent

def treeMinimum (t : RbTree) : Nat → Nat → Option Nat
  | 0, _ => none
  | fuel+1, x => do
    let nx ← t.mem x
    if nx.left = 0 then some x else t.treeMinimum fuel nx.left

/-- What `remove_fixup` does about a red sibling `w`; it returns the new one. -/
def rotateSibling (t : RbTree) (s : Side) (parent w : Nat) : Option (Nat × RbTree) := do
  if ← t.isRed w then
    let t ← t.setColor w .black
    let t ← t.setColor parent .red
    let t ← t.rotate s parent
    let np ← t.mem parent
    return (np.child s.flip,t)
  else return (w,t)

/-- A red child of the sibling `w` that is only on the near side is rotated up; it returns the new
sibling. -/
def turnNear (t : RbTree) (s : Side) (parent w : Nat) : Option (Nat × RbTree) := do
  let nw ← t.mem w
  if ← t.isRed (nw.child s.flip) then return (w,t)
  else
    let t ← t.blacken (nw.child s)
    let t ← t.setColor w .red
    let t ← t.rotate s.flip w
    let np ← t.mem parent
    return (np.child s.flip,t)

def liftSibling (t : RbTree) (s : Side) (parent w : Nat) : Option RbTree := do
  let np ← t.mem parent
  let t ← t.setColor w np.color
  let t ← t.setColor parent .black
  let nw ← t.mem w
  let t ← t.blacken (nw.child s.flip)
  t.rotate s parent

/-- One round of `remove_fixup`; it returns the next `x` and `x_parent`. -/
def removeRound (t : RbTree) (x parent : Nat) : Option (Nat × Nat × RbTree) := do
  let np ← t.mem parent
  let s : Side := if x = np.left then .left else .right
  let r ← t.rotateSibling s parent (np.child s.flip)
  let nw ← r.2.mem r.1
  let near ← r.2.isRed (nw.child s)
  let far ← r.2.isRed (nw.child s.flip)
  if !near && !far then
    let t ← r.2.setColor r.1 .red
    let np ← t.mem parent
    return (parent,np.parent,t)
  else
    let r ← r.2.turnNear s parent r.1
    let t ← r.2.liftSibling s parent r.1
    return (t.root,parent,t)

def removeFixup : Nat → RbTree → Nat → Nat → Option RbTree
  | 0, _, _, _ => none
  | fuel+1, t, x, parent => do
    let red ← t.isRed x
    if x = t.root || red then t.blacken x
    else
      let r ← t.removeRound x parent
      removeFixup fuel r.2.2 r.1 r.2.1

/-- The first half of `remove` of a node `z` with two children: its successor `y` leaves its own
place. It returns the parent of the node that moves up there. -/
def detachSuccessor (t : RbTree) (z y : Nat) (ny : RbNode) : Option (Nat × RbTree) :=
  if ny.parent = z then some (y,t)
  else do
    let t ← t.transplant y ny.right
    let nz ← t.mem z
    let t ← t.write y fun b => { b with right := nz.right }
    let t ← t.write nz.right fun b => { b with parent := y }
    return (ny.parent,t)

def takePlace (t : RbTree) (z y : Nat) : Option RbTree := do
  let t ← t.transplant z y
  let nz ← t.mem z
  let t ← t.write y fun b => { b with left := nz.left }
  let t ← t.write nz.left fun b => { b with parent := y }
  t.setColor y nz.color

/-- `remove` up to the fix-up. It returns `y_original`, `x` and `x_parent`. -/
def splice (t : RbTree) (fuel z : Nat) : Option (Color × Nat × Nat × RbTree) := do
  let nz ← t.mem z
  if nz.left = 0 then
    let t ← t.transplant z nz.right
    return (nz.color,nz.right,nz.parent,t)
  else if nz.right = 0 then
    let t ← t.transplant z nz.left
    return (nz.color,nz.left,nz.parent,t)
  else do
    let y ← t.treeMinimum fuel nz.right
    let ny ← t.mem y
    let r ← t.detachSuccessor z y ny
    let t ← r.2.takePlace z y
    return (ny.color,ny.right,r.1,t)

def remove (t : RbTree) (fuel z : Nat) : Option RbTree := do
  let r ← t.splice fuel z
  if r.1 = .black then removeFixup fuel r.2.2.2 r.2.1 r.2.2.1 else some r.2.2.2

def first (t : RbTree) (fuel : Nat) : Option Nat :=
  if t.root = 0 then some 0 else t.treeMinimum fuel t.root

def climb (t : RbTree) : Nat → Nat → Nat → Option Nat
  | 0, _, _ => none
  | fuel+1, node, parent =>
    if parent = 0 then some 0
    else do
      let np ← t.mem parent
      if node = np.right then t.climb fuel parent np.parent else some parent

def next (t : RbTree) (fuel : Nat) (node : Nat) : Option Nat :=
  if node = 0 then some 0
  else do
    let b ← t.mem node
    if b.right ≠ 0 then t.treeMinimum fuel b.right else t.climb fuel node b.parent

/-- `find_containing`, and `find` with the order itself: the first node on the way down that
`key` compares equal to. -/
def findContaining (t : RbTree) (cmp : Nat → Int) : Nat → Nat → Option Nat
  | 0, _ => none
  | fuel+1, x =>
    if x = 0 then some 0
    else do
      let nx ← t.mem x
      if cmp x = 0 then some x
      else t.findContaining cmp fuel (if cmp x < 0 then nx.left else nx.right)

end RbTree

/-! Trees in memory. A state shows a subtree `s` in a context `fs` when the links of the nodes of both are as
the two say, parent links included. -/

open Lib.ColorTree List RbTree

namespace RbNode
variable {s : Side} {p a b q v : Nat} {c d : Color}

def facing (s : Side) (parent near far : Nat) (color : Color) : RbNode :=
  match s with
  | .left => ⟨parent,near,far,color⟩
  | .right => ⟨parent,far,near,color⟩

@[simp] theorem facing_parent : (facing s p a b c).parent = p := by cases s <;> rfl

@[simp] theorem facing_color : (facing s p a b c).color = c := by cases s <;> rfl

@[simp] theorem facing_child : (facing s p a b c).child s = a := by cases s <;> rfl

@[simp] theorem facing_child_flip : (facing s p a b c).child s.flip = b := by cases s <;> rfl

@[simp] theorem setChild_facing : (facing s p a b c).setChild s v = facing s p v b c := by
  cases s <;> rfl

@[simp] theorem setChild_flip_facing : (facing s p a b c).setChild s.flip v = facing s p a v c := by
  cases s <;> rfl

@[simp] theorem facing_setParent :
    { facing s p a b c with parent := q } = facing s q a b c := by cases s <;> rfl

@[simp] theorem facing_setColor :
    { facing s p a b c with color := d } = facing s p a b d := by cases s <;> rfl

@[simp] theorem side_facing (h : a ≠ b) :
    (if a = (facing s p a b c).left then Side.left else .right) = s := by
  cases s <;> simp [facing,h]

theorem facing_flip : facing s.flip p b a c = facing s p a b c := by cases s <;> rfl

end RbNode

open RbNode

def top : ColorTree Nat → Nat
  | .nil => 0
  | .node _ _ x _ => x

/-- A subtree in memory whose root has the parent `p`. -/
def Rep (mem : Nat → Option RbNode) : Nat → ColorTree Nat → Prop
  | _, .nil => True
  | p, .node c l x r => x ≠ 0 ∧ mem x = some ⟨p,top l,top r,c⟩ ∧ Rep mem x l ∧ Rep mem x r

variable {mem mem' : Nat → Option RbNode} {p q x y u v w : Nat} {t t' : RbTree}
  {s a b e k l r : ColorTree Nat} {i : Side} {c d : Color} {f g : Frame Nat} {fs gs : List (Frame Nat)}

@[simp] theorem top_nil : top .nil = 0 := rfl

@[simp] theorem top_node : top (.node c a x b) = x := rfl

@[simp] theorem top_join : top (join i c a x b) = x := by cases i <;> rfl

theorem top_plug_cons (f : Frame Nat) (fs : List (Frame Nat)) (a b : ColorTree Nat) :
    top (plug (f :: fs) a) = top (plug (f :: fs) b) := by
  induction fs generalizing f a b with
  | nil => simp [plug,Frame.fill]
  | cons g fs ih => exact ih g (f.fill a) (f.fill b)

theorem rep_join : Rep mem p (join i c a x b) ↔
      x ≠ 0 ∧ mem x = some (facing i p (top a) (top b) c) ∧ Rep mem x a ∧ Rep mem x b := by
  cases i
  · rfl
  simp only [join,Rep,facing]
  tauto

theorem top_mem (h : s ≠ .nil) : top s ∈ s.elems := by
  cases s with
  | nil => exact absurd rfl h
  | node c l x r => simp [top,elems]

theorem Rep.ne_zero (h : Rep mem p s) (hx : x ∈ s.elems) : x ≠ 0 := by
  induction s generalizing p with
  | nil => simp [elems] at hx
  | node c l y r ihl ihr =>
    simp only [elems,mem_cons,mem_append] at hx
    rcases hx with rfl | hx | hx
    · exact h.1
    · exact ihl h.2.2.1 hx
    · exact ihr h.2.2.2 hx

theorem Rep.top_eq_zero (h : Rep mem p s) : top s = 0 ↔ s = .nil := by
  constructor
  · intro h0
    by_contra hs
    exact h.ne_zero (top_mem hs) h0
  · rintro rfl
    rfl

theorem Rep.congr (h : Rep mem p s) (hm : ∀ x ∈ s.elems, mem' x = mem x) : Rep mem' p s := by
  induction s generalizing p with
  | nil => trivial
  | node c l y r ihl ihr =>
    simp only [elems,mem_cons,mem_append,forall_eq_or_imp] at hm
    refine ⟨h.1,hm.1.trans h.2.1,?_,?_⟩
    · exact ihl h.2.2.1 fun x hx => hm.2 x (.inl hx)
    · exact ihr h.2.2.2 fun x hx => hm.2 x (.inr hx)

def up : List (Frame Nat) → Nat
  | [] => 0
  | f :: _ => f.elem

@[simp] theorem up_nil : up [] = 0 := rfl

@[simp] theorem up_cons : up (f :: fs) = f.elem := rfl

/-- A context in memory with the link to its hole leading to `a`. -/
def Above (t : RbTree) : List (Frame Nat) → Nat → Prop
  | [], a => t.root = a
  | f :: fs, a => f.elem ≠ 0 ∧
      t.mem f.elem = some (facing f.side (up fs) a (top f.sibling) f.color) ∧
      Rep t.mem f.elem f.sibling ∧ Above t fs f.elem

theorem Above.congr {z : Nat} (h : Above t fs z) (hr : t'.root = t.root)
    (hm : ∀ x ∈ outer fs, t'.mem x = t.mem x) : Above t' fs z := by
  induction fs generalizing z with
  | nil => exact hr.trans h
  | cons f fs ih =>
    simp only [outer,mem_cons,mem_append,forall_eq_or_imp] at hm
    refine ⟨h.1,hm.1.trans h.2.1,?_,?_⟩
    · exact h.2.2.1.congr fun x hx => hm.2 x (.inl hx)
    · exact ih h.2.2.2 fun x hx => hm.2 x (.inr hx)

theorem Above.root_mem {z : Nat} (h : Above t (f :: fs) z) : t.root ≠ 0 ∧ t.root ∈ outer (f :: fs) := by
  induction fs generalizing f z with
  | nil =>
    have hr : t.root = f.elem := h.2.2.2
    simp [hr,h.1,outer]
  | cons g fs ih =>
    obtain ⟨h0,hm⟩ := ih h.2.2.2
    exact ⟨h0,by simp [outer] at hm ⊢; tauto⟩

structure Shows (t : RbTree) (fs : List (Frame Nat)) (s : ColorTree Nat) : Prop where
  above : Above t fs (top s)
  rep : Rep t.mem (up fs) s
  distinct : (plug fs s).inorder.Nodup

theorem shows_fill : Shows t fs (f.fill s) ↔ Shows t (f :: fs) s := by
  constructor
  · intro h
    obtain ⟨h1,h2,h3,h4⟩ := rep_join.mp h.rep
    have ha := h.above
    rw [Frame.fill,top_join] at ha
    exact ⟨⟨h1,h2,h4,ha⟩,h3,h.distinct⟩
  intro h
  obtain ⟨h1,h2,h3,h4⟩ := h.above
  exact ⟨by rwa [Frame.fill,top_join],rep_join.mpr ⟨h1,h2,h.rep,h3⟩,h.distinct⟩

theorem shows_plug : Shows t gs (plug fs s) ↔ Shows t (fs ++ gs) s := by
  induction fs generalizing s with
  | nil => rfl
  | cons f fs ih => exact ih.trans shows_fill

namespace Shows

theorem nodup (h : Shows t fs s) : (s.elems ++ outer fs).Nodup :=
  (elems_plug fs s).nodup_iff.mp ((elems_perm _).nodup_iff.mpr h.distinct)

theorem congr (h : Shows t fs s) (hr : t'.root = t.root)
    (hm : ∀ x ∈ (plug fs s).inorder, t'.mem x = t.mem x) : Shows t' fs s := by
  have hmem : ∀ x ∈ s.elems ++ outer fs, t'.mem x = t.mem x := fun x hx =>
    hm x (mem_elems.mp ((elems_plug fs s).mem_iff.mpr hx))
  refine ⟨h.above.congr hr ?_,h.rep.congr ?_,h.distinct⟩
  · exact fun x hx => hmem x (mem_append_right _ hx)
  · exact fun x hx => hmem x (mem_append_left _ hx)

theorem near (h : Shows t fs (join i c a x b)) : Shows t (⟨i,c,x,b⟩ :: fs) a := shows_fill.mp h

theorem far (h : Shows t fs (join i c a x b)) : Shows t (⟨i.flip,c,x,a⟩ :: fs) b :=
  shows_fill.mp (by rwa [Frame.fill,join_flip])

theorem parent (h : Shows t (⟨i,c,x,b⟩ :: fs) a) : Shows t fs (join i c a x b) := shows_fill.mpr h

theorem parentFar (h : Shows t (⟨i.flip,c,x,a⟩ :: fs) b) : Shows t fs (join i c a x b) := by
  rw [← join_flip]
  exact h.parent

theorem cell (h : Shows t fs (join i c a x b)) :
    t.mem x = some (facing i (up fs) (top a) (top b) c) := (rep_join.mp h.rep).2.1

theorem top_ne_sibling (h : Shows t (f :: fs) s) (hs : s ≠ .nil ∨ f.sibling ≠ .nil) :
    top s ≠ top f.sibling := by
  have hn := h.nodup
  have hr := h.rep.top_eq_zero
  have hr' := h.above.2.2.1.top_eq_zero
  by_cases h1 : s = .nil
  · grind
  by_cases h2 : f.sibling = .nil
  · grind
  have h3 := top_mem h1
  have h4 := top_mem h2
  grind [outer]

theorem top_eq_root (h : Shows t fs s) : top s = t.root ↔ fs = [] := by
  cases fs with
  | nil => simpa using h.above.symm
  | cons f fs =>
    obtain ⟨h0,hm⟩ := h.above.root_mem
    have hn := h.nodup
    by_cases hs : s = .nil
    · subst hs
      simpa [top] using h0.symm
    · have := top_mem hs
      grind

end Shows

@[simp] theorem put_root (t : RbTree) (x : Nat) (b : RbNode) : (t.put x b).root = t.root := rfl

@[simp] theorem put_same (t : RbTree) (x : Nat) (b : RbNode) : (t.put x b).mem x = some b := by
  simp [put]

@[simp, grind =] theorem put_other (b : RbNode) (h : y ≠ x) : (t.put x b).mem y = t.mem y := by
  simp [put,h]

theorem write_eq {b : RbNode} (h : t.mem x = some b) (f : RbNode → RbNode) :
    t.write x f = some (t.put x (f b)) := by
  simp [write,h]

theorem setParent_spec (h : Rep t.mem p s) (hn : s.elems.Nodup) (q : Nat) :
    ∃ t', t.setParent (top s) q = some t' ∧ Rep t'.mem q s ∧ t'.root = t.root ∧
      ∀ x ∉ s.elems, t'.mem x = t.mem x := by
  cases s with
  | nil => exact ⟨t,rfl,trivial,rfl,fun _ _ => rfl⟩
  | node c l x r =>
    obtain ⟨h1,h2,h3,h4⟩ := h
    simp only [elems,nodup_cons,mem_append,not_or] at hn
    refine ⟨t.put x ⟨q,top l,top r,c⟩,?_,⟨h1,put_same _ _ _,?_,?_⟩,rfl,?_⟩
    · rw [top,setParent,if_neg h1,write_eq h2]
    · exact h3.congr fun y hy => put_other _ (by grind)
    · exact h4.congr fun y hy => put_other _ (by grind)
    intro y hy
    exact put_other _ (by grind [elems])

theorem replaceChild_spec (h : Above t fs u) (hn : (outer fs).Nodup) (hu : u ≠ 0)
    (hm : u ∉ outer fs) (i : Side) (v : Nat) :
    ∃ t', t.replaceChild i (up fs) u v = some t' ∧ Above t' fs v ∧
      ∀ x ∉ outer fs, t'.mem x = t.mem x := by
  cases fs with
  | nil => exact ⟨{ t with root := v },rfl,rfl,fun _ _ => rfl⟩
  | cons f fs =>
    obtain ⟨h1,h2,h3,h4⟩ := h
    simp only [outer,mem_cons,mem_append,not_or] at hm
    have hs : u ≠ top f.sibling := by
      intro he
      by_cases hne : f.sibling = .nil
      · rw [hne] at he
        exact hu he
      · exact hm.2.1 (he ▸ top_mem hne)
    simp only [outer,nodup_cons,mem_append,not_or] at hn
    refine ⟨t.put f.elem (facing f.side (up fs) v (top f.sibling) f.color),?_,
      ⟨h1,put_same _ _ _,?_,?_⟩,?_⟩
    · rw [replaceChild,if_neg (by exact h1)]
      simp only [up_cons,h2,Option.bind_eq_bind,Option.bind_some]
      rcases f.side.eq_or_flip i with rfl | rfl
      · rw [if_pos facing_child.symm,write_eq h2,setChild_facing]
      · rw [if_neg (by simpa using hs),write_eq h2,Side.flip_flip,setChild_facing]
    · exact h3.congr fun y hy => put_other _ (by grind)
    · exact h4.congr rfl fun y hy => put_other _ (by grind)
    · intro y hy
      exact put_other _ (by grind [outer])

theorem transplant_spec {n : RbNode} (h : Above t fs u) (hu : u ≠ 0) (hc : t.mem u = some n)
    (hp : n.parent = up fs) (hm : u ∉ outer fs) (hk : Rep t.mem p k)
    (hn : (k.elems ++ outer fs).Nodup) :
    ∃ t', t.transplant u (top k) = some t' ∧ Above t' fs (top k) ∧ Rep t'.mem (up fs) k ∧
      ∀ x ∉ k.elems, x ∉ outer fs → t'.mem x = t.mem x := by
  obtain ⟨t1,h1,ha,hm1⟩ := replaceChild_spec h (by grind) hu hm .left (top k)
  have hk1 : Rep t1.mem p k := hk.congr (by grind)
  obtain ⟨t2,h2,hr2,hroot,hm2⟩ := setParent_spec hk1 (by grind) (up fs)
  refine ⟨t2,?_,ha.congr hroot (by grind),hr2,by grind⟩
  simp only [transplant,hc,hp,h1,h2,Option.bind_eq_bind,Option.bind_some]

theorem setColor_spec (h : Shows t fs (join i c a x b)) (d : Color) :
    ∃ t', t.setColor x d = some t' ∧ Shows t' fs (join i d a x b) := by
  obtain ⟨hx,hc,ha,hb⟩ := rep_join.mp h.rep
  have hn : (x :: (a.elems ++ b.elems) ++ outer fs).Nodup :=
    (elems_join.append_right _).nodup_iff.mp h.nodup
  have habove := h.above
  rw [top_join] at habove
  refine ⟨t.put x (facing i (up fs) (top a) (top b) d),?_,?_,?_,?_⟩
  · rw [setColor,write_eq hc,facing_setColor]
  · rw [top_join]
    exact habove.congr rfl (by grind)
  · exact rep_join.mpr ⟨hx,put_same _ _ _,ha.congr (by grind),hb.congr (by grind)⟩
  · have hd := h.distinct
    rwa [inorder_plug,← inorder_paint _ d,paint_join,← inorder_plug] at hd

theorem isRed_spec (h : Shows t fs s) : t.isRed (top s) = some (decide (s.color = .red)) := by
  cases s with
  | nil => rfl
  | node c l x r =>
    obtain ⟨h1,h2,-⟩ := h.rep
    rw [top,isRed,if_neg h1,h2]
    rfl

theorem blacken_spec (h : Shows t fs s) :
    ∃ t', t.blacken (top s) = some t' ∧ Shows t' fs (s.paint .black) := by
  cases s with
  | nil => exact ⟨t,rfl,h⟩
  | node c l x r =>
    rw [top,blacken,if_neg h.rep.1]
    exact setColor_spec (i := .left) h .black

theorem rotate_spec (h : Shows t fs (join i c a x (join i d b y e))) :
    ∃ t', t.rotate i x = some t' ∧ Shows t' fs (join i d (join i c a x b) y e) := by
  obtain ⟨hx,hcx,hra,hry⟩ := rep_join.mp h.rep
  obtain ⟨hy,hcy,hrb,hre⟩ := rep_join.mp hry
  have hn : (x :: (a.elems ++ y :: (b.elems ++ e.elems)) ++ outer fs).Nodup := by
    refine (Perm.nodup_iff ?_).mp h.nodup
    exact (elems_join.trans ((elems_join.append_left _).cons _)).append_right _
  simp only [cons_append,append_assoc,nodup_cons,nodup_append,mem_append, mem_cons] at hn
  have habove := h.above
  rw [top_join] at habove
  rw [top_join] at hcx
  -- the writes in the order of the source
  obtain ⟨t2,h2,hb2,hr2,hm2⟩ := setParent_spec (t := t.put x (facing i (up fs) (top a) (top b) c))
    (hrb.congr fun z hz => put_other _ (by grind)) (by grind) x
  have hy2 : t2.mem y = some (facing i x (top b) (top e) d) := by grind
  obtain ⟨t4,h4,ha4,hm4⟩ := replaceChild_spec (t := t2.put y (facing i (up fs) (top b) (top e) d))
    (habove.congr (by simp [hr2]) (by grind)) (by grind) hx (by grind) i y
  have hy4 : t4.mem y = some (facing i (up fs) (top b) (top e) d) := by
    rw [hm4 y (by grind),put_same]
  have hx4 : t4.mem x = some (facing i (up fs) (top a) (top b) c) := by
    rw [hm4 x (by grind),put_other _ (by grind),hm2 x (by grind),put_same]
  refine ⟨(t4.put y (facing i (up fs) x (top e) d)).put x (facing i y (top a) (top b) c),?_,?_,?_,?_⟩
  · have hx5 : (t4.put y (facing i (up fs) x (top e) d)).mem x =
        some (facing i (up fs) (top a) (top b) c) := by
      rw [put_other _ (by grind),hx4]
    simp only [RbTree.rotate,hcx,facing_child_flip,hcy,Option.bind_eq_bind,Option.bind_some,
      facing_child,write_eq hcx,setChild_flip_facing,h2,write_eq hy2,facing_setParent,
      facing_parent,h4,write_eq hy4,setChild_facing,write_eq hx5]
  · rw [top_join]
    exact ha4.congr rfl (by grind)
  · refine rep_join.mpr ⟨hy,?_,rep_join.mpr ⟨hx,put_same _ _ _,?_,?_⟩,?_⟩
    · rw [put_other _ (by grind),put_same,top_join]
    · exact hra.congr (by grind)
    · exact hb2.congr (by grind)
    · exact hre.congr (by grind)
  have hd := h.distinct
  rw [inorder_plug] at hd ⊢
  rwa [inorder_rotate]

end Rucux.Ds
