import Rucux.Ds.RbTreeRuns
import Rucux.Lib.Intervals
import Rucux.Lib.References

/-! The regions of an address space: records in a red-black tree that is ordered by their start addresses. A node of
the tree and its record share an address, and 0 is the null pointer. What `new vma()` returns is an argument of the
call that makes it. References to backing nodes are not counted here. -/

namespace Rucux.Memory
open Ds

/-- `vma`; the range is `[start, stop)`. -/
structure Vma where
  start : Nat
  stop : Nat
  prot : BitVec 32
  flags : BitVec 32
  fd : Int
  fileOffset : BitVec 64
  backing : Nat
  deriving DecidableEq

structure VmaManager where
  tree : Tracked
  regions : Nat → Option Vma

namespace VmaManager

def init : VmaManager := ⟨⟨⟨fun _ => none,0⟩,[]⟩,fun _ => none⟩

def set (m : VmaManager) (a : Nat) (v : Vma) : VmaManager :=
  { m with regions := Function.update m.regions a (some v) }

def keyOf (regions : Nat → Option Vma) (a : Nat) : Nat := (regions a).elim 0 (·.start)

def vmaCmp (regions : Nat → Option Vma) (a b : Nat) : Int :=
  if keyOf regions a < keyOf regions b then -1
  else if keyOf regions a > keyOf regions b then 1
  else 0

def vmaFindCmp (regions : Nat → Option Vma) (addr : Nat) (a : Nat) : Int :=
  match regions a with
  | none => -1
  | some v => if addr < v.start then -1 else if addr ≥ v.stop then 1 else 0

def treeInsert (m : VmaManager) (a : Nat) : Option VmaManager :=
  (m.tree.step (vmaCmp m.regions) (.insert a)).map fun t => { m with tree := t }

def treeRemove (m : VmaManager) (a : Nat) : Option VmaManager :=
  (m.tree.step (vmaCmp m.regions) (.remove a)).map fun t => { m with tree := t }

def delete (m : VmaManager) (a : Nat) : VmaManager :=
  if a = 0 then m else { m with regions := Function.update m.regions a none }

def first (m : VmaManager) : Option Nat := m.tree.tree.first m.tree.fuel

def advance (m : VmaManager) (a : Nat) : Option Nat := m.tree.tree.next m.tree.fuel a

/-- The loops that look for a region: from the node `a` on, to the first for which `found` holds,
but not beyond one for which `halt` holds. -/
def seek (m : VmaManager) (halt found : Vma → Bool) : Nat → Nat → Option Nat
  | 0, _ => none
  | fuel+1, a =>
    if a = 0 then some 0
    else do
      let region ← m.regions a
      if halt region then some 0
      else if found region then some a
      else do
        let b ← m.advance a
        m.seek halt found fuel b

def firstOverlap (m : VmaManager) (start stop : Nat) : Option Nat :=
  if start ≥ stop then some 0
  else do
    let a ← m.first
    m.seek (fun r => decide (r.start ≥ stop)) (fun r => decide (r.stop > start)) m.tree.fuel a

def tailFrom (r : Vma) (cut : Nat) : Vma :=
  { r with start := cut, fileOffset := r.fileOffset + BitVec.ofNat 64 (cut - r.start) }

/-- It returns the part from `cut` on, or null when memory is out. -/
def split (m : VmaManager) (region cut new : Nat) : Option (Nat × VmaManager) :=
  if region = 0 then some (region,m)
  else do
    let r ← m.regions region
    if cut ≤ r.start || cut ≥ r.stop then return (region,m)
    else if new = 0 then return (0,m)
    else
      let m := m.set new (tailFrom r cut)
      let m := m.set region { r with stop := cut }
      let m ← m.treeInsert new
      return (new,m)

def insert (m : VmaManager) (v : Vma) (new : Nat) : Option (Nat × VmaManager) :=
  if v.start ≥ v.stop then some (0,m)
  else do
    let a ← m.firstOverlap v.start v.stop
    if a ≠ 0 || new = 0 then return (0,m)
    else
      let m ← (m.set new v).treeInsert new
      return (new,m)

def find (m : VmaManager) (addr : Nat) : Option Nat :=
  m.tree.tree.findContaining (vmaFindCmp m.regions addr) m.tree.fuel m.tree.tree.root

def coversFrom (m : VmaManager) (stop : Nat) : Nat → Nat → Option Bool
  | 0, _ => none
  | fuel+1, cursor =>
    if cursor < stop then do
      let a ← m.find cursor
      if a = 0 then some false
      else do
        let region ← m.regions a
        if region.stop ≤ cursor then some false else m.coversFrom stop fuel region.stop
    else some true

def covers (m : VmaManager) (start stop : Nat) : Option Bool :=
  if start ≥ stop then some false else m.coversFrom stop m.tree.fuel start

def isolate (m : VmaManager) (start stop new new' : Nat) : Option (Bool × VmaManager) :=
  if start ≥ stop then some (false,m)
  else do
    let first ← m.firstOverlap start stop
    if first = 0 then return (true,m)
    else
      let r ← m.regions first
      let p ← (if r.start < start then m.split first start new else some (first,m))
      if p.1 = 0 then return (false,p.2)
      else
        let m := p.2
        let last ← m.find (stop-1)
        if last = 0 then return (true,m)
        else
          let r ← m.regions last
          if r.stop > stop then
            let p ← m.split last stop new'
            return (decide (p.1 ≠ 0),p.2)
          else return (true,m)

def protectFrom (m : VmaManager) (stop : Nat) (prot : BitVec 32) : Nat → Nat → Option VmaManager
  | 0, _ => none
  | fuel+1, a =>
    if a = 0 then some m
    else do
      let r ← m.regions a
      if r.start < stop then
        let m := m.set a { r with prot := prot }
        let b ← m.advance a
        m.protectFrom stop prot fuel b
      else some m

def setProt (m : VmaManager) (start stop : Nat) (prot : BitVec 32) (new new' : Nat) :
    Option (Bool × VmaManager) := do
  let c ← m.covers start stop
  if !c then return (false,m)
  else
    let a ← m.find start
    if a = 0 then return (false,m)
    else
      let r ← m.regions a
      let p ← (if r.start < start then m.split a start new else some (a,m))
      if p.1 = 0 then return (false,p.2)
      else
        let region := p.1
        let m := p.2
        let crossing ← m.seek (fun r => decide (¬r.start < stop)) (fun r => decide (r.stop > stop))
          m.tree.fuel region
        let q ← (if crossing = 0 then some (region,m) else m.split crossing stop new')
        if q.1 = 0 then return (false,q.2)
        else
          let m ← q.2.protectFrom stop prot q.2.tree.fuel region
          return (true,m)

/-- The loop of `remove` over the regions that meet the range; `right` is the record for the rest
of a region that goes beyond it on both sides. -/
def removeFrom (m : VmaManager) (start stop : Nat) : Nat → Nat → Option VmaManager
  | 0, _ => none
  | fuel+1, right => do
    let a ← m.firstOverlap start stop
    if a = 0 then return m.delete right
    else
      let r ← m.regions a
      if r.start ≥ start && r.stop ≤ stop then
        let m ← m.treeRemove a
        (m.delete a).removeFrom start stop fuel right
      else if r.start < start && r.stop > stop then
        let m ← (m.set a { r with stop := start }).treeInsert right
        m.removeFrom start stop fuel 0
      else if r.start < start then
        (m.set a { r with stop := start }).removeFrom start stop fuel right
      else (m.set a (tailFrom r stop)).removeFrom start stop fuel right

def remove (m : VmaManager) (start length new : Nat) : Option (Bool × VmaManager) :=
  if length = 0 then some (true,m)
  else if (start + length) % 2^64 < start then some (false,m)
  else do
    let stop := (start + length) % 2^64
    let a ← m.first
    let span ← m.seek (fun r => decide (r.start ≥ stop))
      (fun r => decide (r.start < start) && decide (r.stop > stop)) m.tree.fuel a
    if span = 0 then
      let m ← m.removeFrom start stop (m.tree.fuel + 1) 0
      return (true,m)
    else if new = 0 then return (false,m)
    else
      let r ← m.regions span
      let m ← (m.set new (tailFrom r stop)).removeFrom start stop (m.tree.fuel + 1) new
      return (true,m)

end VmaManager

open Lib Lib.ColorTree List

/-- What an address is mapped to; `offset` is the offset in the file of that very address. -/
structure Mapping where
  prot : BitVec 32
  flags : BitVec 32
  fd : Int
  backing : Nat
  offset : BitVec 64
  deriving DecidableEq

def Vma.mapping (v : Vma) (a : Nat) : Mapping :=
  ⟨v.prot,v.flags,v.fd,v.backing,v.fileOffset + BitVec.ofNat 64 (a - v.start)⟩

def vmaExtent : Extent (Nat × Vma) Mapping where
  lo := fun x => x.2.start
  hi := fun x => x.2.stop
  val := fun x a => x.2.mapping a

namespace VmaManager

theorem vmaCmp_preorder (regions : Nat → Option Vma) : TotalPreorder (vmaCmp regions) where
  swap := by
    intro x y
    unfold vmaCmp
    split <;> split <;> omega
  trans := by
    intro x y z
    unfold vmaCmp
    split <;> split <;> split <;> omega

/-- The records of `m` are `rs`, in the order of their addresses. -/
structure View (m : VmaManager) (rs : List (Nat × Vma)) : Prop where
  tree : ∃ w, Shows m.tree.tree [] w ∧ w.RedBlack ∧ w.inorder ~ m.tree.nodes ∧ w.inorder = rs.map (·.1)
  regions : ∀ x ∈ rs, m.regions x.1 = some x.2
  ordered : vmaExtent.Ordered rs

variable {m : VmaManager} {rs xs ys : List (Nat × Vma)} {a z : Nat} {v u : Vma}

namespace View

theorem inhabited (h : View m rs) {x : Nat × Vma} (hx : x ∈ rs) : x.2.start < x.2.stop :=
  h.ordered.inhabited x hx

theorem middle (h : View m (xs ++ (a,v) :: ys)) :
    (∀ x ∈ xs, x.2.stop ≤ v.start) ∧ ∀ y ∈ ys, v.stop ≤ y.2.start :=
  (Extent.ordered_middle.mp h.ordered).2.2

theorem nodup (h : View m rs) : (rs.map (·.1)).Nodup := by
  obtain ⟨w,hs,-,-,hw⟩ := h.tree
  rw [← hw]
  exact hs.distinct

theorem ne_zero (h : View m rs) {x : Nat × Vma} (hx : x ∈ rs) : x.1 ≠ 0 := by
  obtain ⟨w,hs,-,-,hw⟩ := h.tree
  exact hs.rep.ne_zero (mem_elems.mpr (by rw [hw]; exact mem_map_of_mem hx))

theorem here (h : View m (xs ++ (a,v) :: ys)) : a ≠ 0 ∧ m.regions a = some v :=
  ⟨h.ne_zero (x := (a,v)) (by simp),h.regions (a,v) (by simp)⟩

section
variable (h : View m rs)
include h

theorem zero_notMem : 0 ∉ rs.map (·.1) := by
  intro h0
  obtain ⟨x,hx,hx0⟩ := mem_map.mp h0
  exact h.ne_zero hx hx0

theorem mem_nodes : a ∈ m.tree.nodes ↔ a ∈ rs.map (·.1) := by
  obtain ⟨w,-,-,hp,hw⟩ := h.tree
  rw [← hw,hp.mem_iff]

theorem fuel_eq : m.tree.fuel = rs.length + 1 := by
  obtain ⟨w,-,-,hp,hw⟩ := h.tree
  rw [Tracked.fuel,← hp.length_eq,hw,length_map]

theorem sorted : Sorted (vmaCmp m.regions) (rs.map (·.1)) := by
  have hr := h.regions
  refine pairwise_map.mpr ((h.ordered.apart.imp_of_mem ?_))
  intro x y hx hy hle
  have hxy : x.2.stop ≤ y.2.start := hle
  have hx' := h.inhabited hx
  simp only [vmaCmp,keyOf,hr x hx,hr y hy,Option.elim]
  split <;> omega

theorem holds : ∃ w, m.tree.Holds (vmaCmp m.regions) w ∧ w.inorder = rs.map (·.1) := by
  obtain ⟨w,hs,hrb,hp,hw⟩ := h.tree
  exact ⟨w,⟨hs,hrb,hw ▸ h.sorted,hp⟩,hw⟩

end

end View

theorem view_init : View init [] :=
  ⟨⟨.nil,⟨rfl,trivial,.nil⟩,⟨rfl,trivial,0,rfl⟩,.nil,rfl⟩,by simp,⟨by simp,.nil⟩⟩

@[simp] theorem set_same : (m.set a v).regions a = some v := by simp [set]

theorem set_other {b : Nat} (h : b ≠ a) : (m.set a v).regions b = m.regions b := by
  simp [set,h]

theorem View.setFresh (h : View m rs) (ha : a ∉ rs.map (·.1)) : View (m.set a v) rs := by
  refine ⟨h.tree,fun x hx => ?_,h.ordered⟩
  have hne : x.1 ≠ a := by
    rintro rfl
    exact ha (mem_map_of_mem hx)
  rw [set_other hne,h.regions x hx]

theorem View.change (h : View m (xs ++ (a,u) :: ys))
    (ho : vmaExtent.Ordered (xs ++ (a,v) :: ys)) : View (m.set a v) (xs ++ (a,v) :: ys) := by
  obtain ⟨w,hs,hrb,hp,hw⟩ := h.tree
  have hn := h.nodup
  simp only [map_append,map_cons] at hn
  have hnot := (nodup_cons.mp (nodup_middle.mp hn)).1
  rw [← map_append] at hnot
  refine ⟨⟨w,hs,hrb,hp,by simpa using hw⟩,fun x hx => ?_,ho⟩
  rcases mem_cons.mp (perm_middle.mem_iff.mp hx) with rfl | hx
  · exact set_same
  have hne : x.1 ≠ a := fun he => hnot (he ▸ mem_map_of_mem hx)
  rw [set_other hne]
  exact h.regions x (perm_middle.mem_iff.mpr (mem_cons_of_mem _ hx))

theorem split_unique {α : Type} {P : α → Prop} {l r l' r' : List α} (h : l ++ r = l' ++ r')
    (hl : ∀ x ∈ l, P x) (hr : ∀ x ∈ r, ¬P x) (hl' : ∀ x ∈ l', P x) (hr' : ∀ x ∈ r', ¬P x) :
    l = l' ∧ r = r' := by
  rcases append_eq_append_iff.mp h with ⟨as,rfl,rfl⟩ | ⟨as,rfl,rfl⟩
  · cases as with
    | nil => simp
    | cons x as => exact absurd (hl' x (by simp)) (hr x (by simp))
  cases as with
  | nil => simp
  | cons x as => exact absurd (hl x (by simp)) (hr' x (by simp))

theorem View.treeInsert (h : View m (xs ++ ys)) (hz : z ≠ 0) (hn : z ∉ (xs ++ ys).map (·.1))
    (hv : m.regions z = some v) (ho : vmaExtent.Ordered (xs ++ (z,v) :: ys)) :
    ∃ m', m.treeInsert z = some m' ∧ m'.regions = m.regions ∧ View m' (xs ++ (z,v) :: ys) := by
  obtain ⟨w,hw,hin⟩ := h.holds
  obtain ⟨t',w',h1,hw',l,r,hlr,hin',hl,hr⟩ := Tracked.step_holds (vmaCmp_preorder _) hw
    (e := .insert z) ⟨hz,fun hm => hn (h.mem_nodes.mp hm)⟩
  obtain ⟨-,hlt,hxs,hys⟩ := Extent.ordered_middle.mp ho
  -- the records before `v` are those that the tree puts before it
  obtain ⟨rfl,rfl⟩ : l = xs.map (·.1) ∧ r = ys.map (·.1) := by
    refine split_unique (P := fun b => vmaCmp m.regions b z ≤ 0)
      (hlr.symm.trans (hin.trans map_append)) hl (fun x hx => Int.not_le.mpr (hr x hx)) ?_ ?_
    · simp only [forall_mem_map]
      intro x hx
      have hle : x.2.stop ≤ v.start := hxs x hx
      have hx' := h.inhabited (mem_append_left _ hx)
      simp only [vmaCmp,keyOf,hv,h.regions x (mem_append_left _ hx),Option.elim]
      split <;> omega
    simp only [forall_mem_map]
    intro y hy
    have hle : v.stop ≤ y.2.start := hys y hy
    have hv' : v.start < v.stop := hlt
    simp only [vmaCmp,keyOf,hv,h.regions y (mem_append_right _ hy),Option.elim]
    split <;> omega
  refine ⟨{ m with tree := t' },by rw [VmaManager.treeInsert,h1]; rfl,rfl,
    ⟨w',hw'.shown,hw'.redBlack,hw'.nodes,by simpa using hin'⟩,fun x hx => ?_,ho⟩
  rcases mem_cons.mp (perm_middle.mem_iff.mp hx) with rfl | hx
  · exact hv
  · exact h.regions x hx

theorem View.divide {v₁ v₂ : Vma} (h : View m (xs ++ (a,v) :: ys)) (hz : z ≠ 0)
    (hn : z ∉ (xs ++ (a,v) :: ys).map (·.1))
    (ho : vmaExtent.Ordered (xs ++ (a,v₁) :: (z,v₂) :: ys)) :
    ∃ m', ((m.set z v₂).set a v₁).treeInsert z = some m' ∧ View m' (xs ++ (a,v₁) :: (z,v₂) :: ys) := by
  have hne : z ≠ a := by
    rintro rfl
    exact hn (by simp)
  have hset := (h.setFresh (v := v₂) hn).change (v := v₁) (ho.sublist (by simp))
  have hset' : View ((m.set z v₂).set a v₁) ((xs ++ [(a,v₁)]) ++ ys) := by simpa using hset
  obtain ⟨m',h1,-,hview⟩ := hset'.treeInsert (v := v₂) hz (by simpa using hn)
    (by rw [set_other hne,set_same]) (by simpa using ho)
  exact ⟨m',h1,by simpa using hview⟩

theorem View.treeRemove (h : View m (xs ++ (a,v) :: ys)) :
    ∃ m', m.treeRemove a = some m' ∧ m'.regions = m.regions ∧ View m' (xs ++ ys) := by
  obtain ⟨w,hw,hin⟩ := h.holds
  obtain ⟨t',w',h1,hw',l,r,hlr,hin'⟩ := Tracked.step_holds (vmaCmp_preorder _) hw
    (e := .remove a) (h.mem_nodes.mpr (by simp))
  have hn := h.nodup
  simp only [map_append,map_cons] at hin hn
  have hnot := (nodup_cons.mp (nodup_middle.mp hn)).1
  rw [mem_append,not_or] at hnot
  obtain ⟨rfl,-,rfl⟩ := (append_cons_inj_of_notMem hnot.1 hnot.2).mp (hin.symm.trans hlr)
  exact ⟨{ m with tree := t' },by rw [VmaManager.treeRemove,h1]; rfl,rfl,
    ⟨w',hw'.shown,hw'.redBlack,hw'.nodes,by simpa using hin'⟩,
    fun x hx => h.regions x (perm_middle.mem_iff.mpr (mem_cons_of_mem _ hx)),
    h.ordered.sublist (by simp)⟩

theorem View.delete (h : View m rs) (ha : a ∉ rs.map (·.1)) : View (m.delete a) rs := by
  unfold VmaManager.delete
  split
  · exact h
  refine ⟨h.tree,fun x hx => ?_,h.ordered⟩
  have hne : x.1 ≠ a := fun he => ha (he ▸ mem_map_of_mem hx)
  exact (Function.update_of_ne hne _ _).trans (h.regions x hx)

def headAddr (rs : List (Nat × Vma)) : Nat := (rs.map (·.1)).headD 0

theorem View.first (h : View m rs) : m.first = some (headAddr rs) := by
  obtain ⟨w,hs,-,-,hw⟩ := h.tree
  have hfuel := h.fuel_eq
  have hlen : w.inorder.length = rs.length := by rw [hw,length_map]
  rw [VmaManager.first,first_eq hs (by omega),hw,headAddr]

theorem View.advance (h : View m (xs ++ (a,v) :: ys)) : m.advance a = some (headAddr ys) := by
  obtain ⟨w,hs,-,-,hw⟩ := h.tree
  have hfuel := h.fuel_eq
  have hlen : w.inorder.length = (xs ++ (a,v) :: ys).length := by rw [hw,length_map]
  rw [map_append,map_cons] at hw
  rw [VmaManager.advance,next_spec hs hw (by omega),headAddr]

theorem View.halt_mono (h : View m rs) (stop : Nat) :
    rs.Pairwise fun x y => decide (x.2.start ≥ stop) = true → decide (y.2.start ≥ stop) = true := by
  refine h.ordered.apart.imp_of_mem fun {x y} hx _ hle => ?_
  have h1 : x.2.stop ≤ y.2.start := hle
  have h2 := h.inhabited hx
  simp only [decide_eq_true_eq]
  omega

theorem View.seek (halt found : Vma → Bool) {fuel : Nat} (h : View m (xs ++ ys))
    (hhalt : ys.Pairwise fun x y => halt x.2 = true → halt y.2 = true) (hfuel : ys.length < fuel) :
    ∃ a, m.seek halt found fuel (headAddr ys) = some a ∧
      (a = 0 ∧ (∀ x ∈ ys, halt x.2 = true ∨ found x.2 = false) ∨
        ∃ ps v qs, ys = ps ++ (a,v) :: qs ∧ (∀ x ∈ ps, found x.2 = false) ∧ halt v = false ∧
          found v = true) := by
  induction ys generalizing xs fuel with
  | nil =>
    obtain ⟨fuel,rfl⟩ : ∃ k, fuel = k+1 := ⟨fuel-1,by omega⟩
    exact ⟨0,rfl,.inl ⟨rfl,by simp⟩⟩
  | cons x ys ih =>
    obtain ⟨b,v⟩ := x
    obtain ⟨fuel,rfl⟩ : ∃ k, fuel = k+1 := ⟨fuel-1,by omega⟩
    have hb : b ≠ 0 := h.ne_zero (x := (b,v)) (by simp)
    have hv : m.regions b = some v := h.regions (b,v) (by simp)
    obtain ⟨hfirst,hrest⟩ := pairwise_cons.mp hhalt
    have hstep : m.seek halt found (fuel+1) (headAddr ((b,v) :: ys)) =
        if halt v then some 0 else if found v then some b
        else m.seek halt found fuel (headAddr ys) := by
      have hhead : headAddr ((b,v) :: ys) = b := rfl
      rw [hhead,VmaManager.seek,if_neg hb,hv]
      simp [h.advance]
    rw [hstep]
    cases hh : halt v with
    | true =>
      refine ⟨0,rfl,.inl ⟨rfl,fun x hx => .inl ?_⟩⟩
      rcases mem_cons.mp hx with rfl | hx
      · exact hh
      · exact hfirst x hx hh
    | false =>
      cases hf : found v with
      | true => exact ⟨b,rfl,.inr ⟨[],v,ys,rfl,by simp,hh,hf⟩⟩
      | false =>
        have h' : View m ((xs ++ [(b,v)]) ++ ys) := by simpa using h
        have hlen : ys.length < fuel := by simpa using hfuel
        obtain ⟨a,h1,hres⟩ := ih h' hrest hlen
        refine ⟨a,by simpa using h1,?_⟩
        rcases hres with ⟨h0,hno⟩ | ⟨ps,u,qs,rfl,hps,hu⟩
        · exact .inl ⟨h0,by simpa [hf] using hno⟩
        · exact .inr ⟨(b,v) :: ps,u,qs,rfl,by simpa [hf] using hps,hu⟩

theorem View.find (h : View m rs) (addr : Nat) :
    ∃ a, m.find addr = some a ∧ (a = 0 ∧ (∀ x ∈ rs, ¬vmaExtent.Around x addr) ∨
      ∃ xs v ys, rs = xs ++ (a,v) :: ys ∧ v.start ≤ addr ∧ addr < v.stop) := by
  obtain ⟨w,hs,-,-,hw⟩ := h.tree
  have hroot : m.tree.tree.root = top w := hs.above
  have hfuel := h.fuel_eq
  have hlen : w.inorder.length = rs.length := by rw [hw,length_map]
  have hcmp : ∀ x ∈ rs, vmaFindCmp m.regions addr x.1 =
      if addr < x.2.start then -1 else if addr ≥ x.2.stop then 1 else 0 := by
    intro x hx
    simp only [vmaFindCmp,h.regions x hx]
  have hmono : w.inorder.Pairwise fun x y =>
      0 ≤ vmaFindCmp m.regions addr y → 0 < vmaFindCmp m.regions addr x := by
    rw [hw]
    refine pairwise_map.mpr (h.ordered.apart.imp_of_mem fun {x y} hx hy hle => ?_)
    have hxy : x.2.stop ≤ y.2.start := hle
    have hx' := h.inhabited hx
    rw [hcmp x hx,hcmp y hy]
    split <;> split <;> omega
  have hlen' : w.inorder.length < m.tree.fuel := by omega
  obtain ⟨a,h1,hres⟩ := findContaining_spec hs.rep hmono hlen'
  refine ⟨a,by rw [VmaManager.find,hroot,h1],?_⟩
  rcases hres with ⟨hm,hc⟩ | ⟨h0,hno⟩
  · rw [hw] at hm
    obtain ⟨⟨b,v⟩,hx,rfl⟩ := mem_map.mp hm
    obtain ⟨xs,ys,rfl⟩ := append_of_mem hx
    rw [hcmp _ hx] at hc
    refine .inr ⟨xs,v,ys,rfl,?_⟩
    dsimp only at hc
    split at hc <;> [skip;split at hc] <;> omega
  refine .inl ⟨h0,fun x hx hax => hno x.1 (by rw [hw]; exact mem_map_of_mem hx) ?_⟩
  have h1 : x.2.start ≤ addr := hax.1
  have h2 : addr < x.2.stop := hax.2
  rw [hcmp x hx,if_neg (by omega),if_neg (by omega)]

end VmaManager

/-! The references that the records of an address space hold on backing nodes. -/

def holdMove (node : Nat) : List (Move Nat) := if node = 0 then [] else [.retain node]

def dropMove (node : Nat) : List (Move Nat) := if node = 0 then [] else [.release node]

section
variable {n k a : Nat} (hn : n ≠ 0) (h : k = n → 0 < a)
include hn h

theorem tally_hold : Tally n a (holdMove k) (a + if k = n then 1 else 0) := by
  unfold holdMove
  by_cases hk : k = n
  · subst hk
    simpa [hn] using tally_retain (h rfl)
  · by_cases h0 : k = 0 <;> simp [h0,hk,Tally,Ne.symm hn]

theorem tally_drop : Tally n a (dropMove k) (a - if k = n then 1 else 0) := by
  unfold dropMove
  by_cases hk : k = n
  · subst hk
    simpa [hn] using tally_release (h rfl)
  · by_cases h0 : k = 0 <;> simp [h0,hk,Tally,Ne.symm hn]

end

namespace VmaManager

def splitMoves (m : VmaManager) (region cut new : Nat) : List (Move Nat) :=
  if region = 0 then []
  else
    match m.regions region with
    | none => []
    | some r => if cut ≤ r.start || cut ≥ r.stop || new = 0 then [] else holdMove r.backing

def insertMoves (m : VmaManager) (v : Vma) (new : Nat) : Option (List (Move Nat)) :=
  if v.start ≥ v.stop then some []
  else do
    let a ← m.firstOverlap v.start v.stop
    if a ≠ 0 || new = 0 then return [] else return holdMove v.backing

def isolateMoves (m : VmaManager) (start stop new new' : Nat) : Option (List (Move Nat)) :=
  if start ≥ stop then some []
  else do
    let first ← m.firstOverlap start stop
    if first = 0 then return []
    else
      let r ← m.regions first
      let ms := if r.start < start then m.splitMoves first start new else []
      let p ← (if r.start < start then m.split first start new else some (first,m))
      if p.1 = 0 then return ms
      else
        let last ← p.2.find (stop-1)
        if last = 0 then return ms
        else
          let r ← p.2.regions last
          if r.stop > stop then return ms ++ p.2.splitMoves last stop new' else return ms

def setProtMoves (m : VmaManager) (start stop new new' : Nat) : Option (List (Move Nat)) := do
  let c ← m.covers start stop
  if !c then return []
  else
    let a ← m.find start
    if a = 0 then return []
    else
      let r ← m.regions a
      let ms := if r.start < start then m.splitMoves a start new else []
      let p ← (if r.start < start then m.split a start new else some (a,m))
      if p.1 = 0 then return ms
      else
        let crossing ← p.2.seek (fun r => decide (¬r.start < stop)) (fun r => decide (r.stop > stop))
          p.2.tree.fuel p.1
        if crossing = 0 then return ms else return ms ++ p.2.splitMoves crossing stop new'

def deleteMoves (m : VmaManager) (a : Nat) : List (Move Nat) :=
  if a = 0 then [] else (m.regions a).elim [] fun r => dropMove r.backing

def removeFromMoves (m : VmaManager) (start stop : Nat) : Nat → Nat → Option (List (Move Nat))
  | 0, _ => none
  | fuel+1, right => do
    let a ← m.firstOverlap start stop
    if a = 0 then return m.deleteMoves right
    else
      let r ← m.regions a
      if r.start ≥ start && r.stop ≤ stop then
        let m ← m.treeRemove a
        let ms ← (m.delete a).removeFromMoves start stop fuel right
        return m.deleteMoves a ++ ms
      else if r.start < start && r.stop > stop then
        let m ← (m.set a { r with stop := start }).treeInsert right
        m.removeFromMoves start stop fuel 0
      else if r.start < start then
        (m.set a { r with stop := start }).removeFromMoves start stop fuel right
      else (m.set a (tailFrom r stop)).removeFromMoves start stop fuel right

def removeMoves (m : VmaManager) (start length new : Nat) : Option (List (Move Nat)) :=
  if length = 0 then some []
  else if (start + length) % 2^64 < start then some []
  else do
    let stop := (start + length) % 2^64
    let a ← m.first
    let span ← m.seek (fun r => decide (r.start ≥ stop))
      (fun r => decide (r.start < start) && decide (r.stop > stop)) m.tree.fuel a
    if span = 0 then m.removeFromMoves start stop (m.tree.fuel + 1) 0
    else if new = 0 then return []
    else
      let r ← m.regions span
      let ms ← (m.set new (tailFrom r stop)).removeFromMoves start stop (m.tree.fuel + 1) new
      return holdMove r.backing ++ ms

variable {m : VmaManager} {rs rs' rs'' : List (Nat × Vma)} {ms ms' : List (Move Nat)} {v : Vma}

/-- The moves go along with the numbers of records that are backed by each node. -/
def Counts (rs : List (Nat × Vma)) (ms : List (Move Nat)) (rs' : List (Nat × Vma)) : Prop :=
  ∀ n, n ≠ 0 → Tally n ((rs.map (·.2.backing)).count n) ms ((rs'.map (·.2.backing)).count n)

theorem Counts.refl (rs : List (Nat × Vma)) : Counts rs [] rs := fun _ _ => rfl

theorem Counts.trans (h : Counts rs ms rs') (h' : Counts rs' ms' rs'') : Counts rs (ms ++ ms') rs'' :=
  fun n hn => (h n hn).append (h' n hn)

theorem counts_same (h : rs'.map (·.2.backing) = rs.map (·.2.backing)) : Counts rs [] rs' := by
  intro n _
  rw [h]
  rfl

theorem counts_hold (hv : v.backing ∈ rs.map (·.2.backing))
    (h : rs'.map (·.2.backing) ~ v.backing :: rs.map (·.2.backing)) : Counts rs (holdMove v.backing) rs' := by
  intro n hn
  rw [h.count_eq,List.count_cons]
  simp only [beq_iff_eq]
  exact tally_hold hn fun he => List.count_pos_iff.mpr (he ▸ hv)

theorem counts_drop (h : rs.map (·.2.backing) ~ v.backing :: rs'.map (·.2.backing)) :
    Counts rs (dropMove v.backing) rs' := by
  intro n hn
  rw [h.count_eq,List.count_cons]
  simp only [beq_iff_eq]
  have ht : Tally n _ (dropMove v.backing) _ :=
    tally_drop (a := (rs'.map (·.2.backing)).count n + if v.backing = n then 1 else 0) hn fun he => by simp [he]
  rwa [Nat.add_sub_cancel] at ht

end VmaManager
end Rucux.Memory
