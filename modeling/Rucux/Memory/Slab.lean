import Rucux.Memory.Buddy
import Rucux.Lib.LinkedCells
import Rucux.Lib.Slots

/-! A slab cache: objects of one size, cut from slabs of pages with a header at the end of each, and in front of the
slabs a magazine of objects for each processor. A call looks at the magazine with interrupts off; when that does not
help it goes on, possibly elsewhere, to one section under the lock of the cache. -/

namespace Rucux.Memory
open Lib Function

/-- `slab`; `freeList` is the first free object, and each free object holds the next. -/
structure Slab where
  base : Nat
  freeList : Nat
  inUse : Nat
  total : Nat
  deriving DecidableEq

namespace Slab

def headerBytes : Nat := 40

def capacity : Nat := 32

structure Layout where
  objSize : Nat
  order : Nat
  objs : Nat
  deriving DecidableEq

def Layout.bytes (c : Layout) : Nat := pageSize*2^c.order

def slabOrder (objSize : Nat) : Nat :=
  ((List.range 4).find? fun order =>
    (pageSize*2^order - headerBytes)/objSize ≥ 8).getD 4

def Layout.init (objSize align : Nat) : Layout :=
  let size := max ((objSize + align - 1)/align*align) 8
  ⟨size,slabOrder size,(pageSize*2^slabOrder size - headerBytes)/size⟩

def sizeClasses : List Nat := [8,16,32,64,128,256,512,1024,2048]

def classLayout (size : Nat) : Layout := .init size 8

end Slab

/-- `slabs` are the headers by their addresses, `words` what the first word of each object holds. `live`
are the objects returned and not given back; those in `freeing` are on their way back to their slab, and
`slow` counts the calls on their way to the slabs for an object. -/
structure SlabCache (n : Nat) where
  slabs : Nat → Option Slab
  words : Nat → Nat
  partialSlabs : List Nat
  fullSlabs : List Nat
  freeSlabs : List Nat
  magazines : Fin n → List Nat
  live : List Nat
  freeing : List Nat
  slow : Nat

namespace SlabCache
open Slab
variable {n : Nat}

def empty (n : Nat) : SlabCache n := ⟨fun _ => none,fun _ => 0,[],[],[],fun _ => [],[],[],0⟩

def unlink (c : SlabCache n) (s : Nat) : SlabCache n :=
  { c with
    partialSlabs := c.partialSlabs.erase s
    fullSlabs := c.fullSlabs.erase s
    freeSlabs := c.freeSlabs.erase s }

def pushPartial (c : SlabCache n) (s : Nat) : SlabCache n :=
  { c with partialSlabs := c.partialSlabs ++ [s] }

def pushFull (c : SlabCache n) (s : Nat) : SlabCache n :=
  { c with fullSlabs := c.fullSlabs ++ [s] }

def pushFree (c : SlabCache n) (s : Nat) : SlabCache n :=
  { c with freeSlabs := c.freeSlabs ++ [s] }

def setSlab (c : SlabCache n) (s : Nat) (slab : Slab) : SlabCache n :=
  { c with slabs := update c.slabs s (some slab) }

def threadObject (t : (Nat → Nat) × Nat) (obj : Nat) : (Nat → Nat) × Nat :=
  (update t.1 obj t.2,obj)

def objects (layout : Layout) (pages : Nat) : List Nat :=
  (List.range layout.objs).map fun i => pages + i*layout.objSize

/-- `grow` with the pages it obtains; it returns the new header. -/
def grow (layout : Layout) (c : SlabCache n) (pages : Nat) : Nat × SlabCache n :=
  let s := pages + layout.bytes - headerBytes
  let threaded := (objects layout pages).foldl threadObject (c.words,0)
  (s,{ c with words := threaded.1 }.setSlab s ⟨pages,threaded.2,0,layout.objs % 2^16⟩)

def pop (c : SlabCache n) (s : Nat) : Option (Nat × SlabCache n) := do
  let slab ← c.slabs s
  let obj := slab.freeList
  return (obj,c.setSlab s { slab with freeList := c.words obj, inUse := (slab.inUse+1) % 2^16 })

/-- `alloc_from_slab`; `pages` is what `alloc_pages` returns if it is called. -/
def allocFromSlab (layout : Layout) (c : SlabCache n) (pages : Nat) : Option (Nat × SlabCache n) :=
  match c.partialSlabs, c.freeSlabs with
  | s :: _, _ => do
    let (obj,c) ← c.pop s
    let slab ← c.slabs s
    return (obj,if slab.freeList = 0 then (c.unlink s).pushFull s else c)
  | [], s :: _ => do
    let (obj,c) ← (c.unlink s).pop s
    return (obj,c.pushPartial s)
  | [], [] =>
    if pages = 0 then some (0,c)
    else do
      let (s,c) := c.grow layout pages
      let (obj,c) ← c.pop s
      return (obj,c.pushPartial s)

def headerOf (layout : Layout) (ptr : Nat) : Nat :=
  ptr/layout.bytes*layout.bytes + layout.bytes - headerBytes

def freeToSlab (layout : Layout) (c : SlabCache n) (ptr : Nat) : Option (SlabCache n) := do
  let s := headerOf layout ptr
  let slab ← c.slabs s
  let inUse := (slab.inUse + (2^16-1)) % 2^16
  let c := { c with words := update c.words ptr slab.freeList }.setSlab s
    { slab with freeList := ptr, inUse := inUse }
  return if inUse = 0 then (c.unlink s).pushFree s
    else if inUse + 1 = slab.total then (c.unlink s).pushPartial s
    else c

inductive Event (n : Nat) where
  /-- `alloc` looks at the magazine. -/
  | alloc (cpu : Fin n)
  /-- An `alloc` that found it empty goes to the slabs. -/
  | allocSlow (pages : Nat)
  /-- `free` looks at the magazine. -/
  | free (cpu : Fin n) (ptr : Nat)
  /-- A `free` that found it full goes to the slab. -/
  | freeSlow (ptr : Nat)
  /-- Who holds an object writes its first word. -/
  | write (obj value : Nat)

def step (layout : Layout) (c : SlabCache n) : Event n → Option (SlabCache n)
  | .alloc cpu =>
    match c.magazines cpu with
    | obj :: rest => some { c with
        magazines := update c.magazines cpu rest, live := obj :: c.live }
    | [] => some { c with slow := c.slow+1 }
  | .allocSlow pages =>
    if c.slow = 0 then some c
    else do
      let (obj,c) ← c.allocFromSlab layout pages
      return { c with slow := c.slow-1, live := if obj = 0 then c.live else obj :: c.live }
  | .free cpu ptr =>
    if ptr = 0 then some c
    else if (c.magazines cpu).length < capacity then some { c with
      magazines := update c.magazines cpu (ptr :: c.magazines cpu)
      live := c.live.erase ptr }
    else some { c with freeing := ptr :: c.freeing }
  | .freeSlow ptr =>
    if ptr ∈ c.freeing then do
      let c ← c.freeToSlab layout ptr
      return { c with freeing := c.freeing.erase ptr, live := c.live.erase ptr }
    else some c
  | .write obj value => some { c with words := update c.words obj value }

def machine (layout : Layout) (n : Nat) : Machine (Option (SlabCache n)) (Event n) :=
  ⟨some (empty n),fun c e => c.bind (·.step layout e)⟩

def slabList (c : SlabCache n) : List Nat := c.partialSlabs ++ c.fullSlabs ++ c.freeSlabs

/-- An object is freed by who holds it and once, and only who holds it writes to it. The pages
of a new slab are aligned to its size and apart from the slabs there are. -/
def ValidFor (layout : Layout) (c : SlabCache n) : Event n → Prop
  | .alloc _ | .freeSlow _ => True
  | .allocSlow pages => pages = 0 ∨ layout.bytes ∣ pages ∧
      ∀ s ∈ c.slabList, pages ≠ s + headerBytes - layout.bytes
  | .free _ ptr => ptr = 0 ∨ ptr ∈ c.live ∧ ptr ∉ c.freeing
  | .write obj _ => obj ∈ c.live ∧ obj ∉ c.freeing

def Valid (layout : Layout) (c : Option (SlabCache n)) (e : Event n) : Prop :=
  ∀ d ∈ c, d.ValidFor layout e

instance (layout : Layout) (c : SlabCache n) : (e : Event n) → Decidable (c.ValidFor layout e)
  | .alloc _ | .freeSlow _ => .isTrue trivial
  | .allocSlow pages => inferInstanceAs (Decidable (pages = 0 ∨ layout.bytes ∣ pages ∧
      ∀ s ∈ c.slabList, pages ≠ s + headerBytes - layout.bytes))
  | .free _ ptr => inferInstanceAs (Decidable (ptr = 0 ∨ ptr ∈ c.live ∧ ptr ∉ c.freeing))
  | .write obj _ => inferInstanceAs (Decidable (obj ∈ c.live ∧ obj ∉ c.freeing))

instance (layout : Layout) : (c : Option (SlabCache n)) → (e : Event n) → Decidable (Valid layout c e)
  | none, _ => .isTrue (by simp [Valid])
  | some c, e => decidable_of_iff (c.ValidFor layout e) (by simp [Valid])

end SlabCache

open List SlabCache Slab

namespace Slab

structure Layout.Ok (c : Layout) : Prop where
  size : 0 < c.objSize
  objs : 2 ≤ c.objs
  few : c.objs < 2^16
  fits : c.objs*c.objSize + headerBytes ≤ c.bytes

theorem classLayout_ok {size : Nat} (h : size ∈ sizeClasses) : (classLayout size).Ok := by
  have hall : ∀ size ∈ sizeClasses, 0 < (classLayout size).objSize ∧ 2 ≤ (classLayout size).objs ∧
      (classLayout size).objs < 2^16 ∧
      (classLayout size).objs*(classLayout size).objSize + headerBytes ≤ (classLayout size).bytes := by
    decide
  obtain ⟨h1,h2,h3,h4⟩ := hall size h
  exact ⟨h1,h2,h3,h4⟩

end Slab

namespace SlabCache
open Slab
variable {n : Nat} {layout : Layout}

def slots (layout : Layout) (s : Nat) : List Nat := objects layout (s + headerBytes - layout.bytes)

theorem mem_objects {pages x : Nat} :
    x ∈ objects layout pages ↔ ∃ i < layout.objs, x = pages + i*layout.objSize := by
  simp only [objects,mem_map,mem_range]
  constructor
  all_goals
    rintro ⟨i,hi,rfl⟩
    exact ⟨i,hi,rfl⟩

theorem objects_length (pages : Nat) : (objects layout pages).length = layout.objs := by
  simp [objects]

theorem objects_nodup (hl : layout.Ok) (pages : Nat) : (objects layout pages).Nodup := by
  refine Nodup.map (fun i j hij => ?_) nodup_range
  have heq : i*layout.objSize = j*layout.objSize := by simpa using hij
  exact Nat.eq_of_mul_eq_mul_right hl.size heq

theorem object_bounds (hl : layout.Ok) {pages x : Nat} (hx : x ∈ objects layout pages) :
    pages ≤ x ∧ x + layout.objSize + headerBytes ≤ pages + layout.bytes := by
  obtain ⟨i,hi,rfl⟩ := mem_objects.mp hx
  have hle : (i+1)*layout.objSize ≤ layout.objs*layout.objSize := Nat.mul_le_mul_right _ hi
  rw [Nat.add_mul,Nat.one_mul] at hle
  have hf := hl.fits
  omega

theorem headerOf_object (hl : layout.Ok) {pages x : Nat} (hd : layout.bytes ∣ pages)
    (hx : x ∈ objects layout pages) : headerOf layout x = pages + layout.bytes - headerBytes := by
  obtain ⟨k,rfl⟩ := hd
  obtain ⟨h1,h2⟩ := object_bounds hl hx
  have hsize := hl.size
  have hk : x/layout.bytes = k := by
    refine Nat.div_eq_of_lt_le ?_ ?_
    · rw [Nat.mul_comm]
      exact h1
    · rw [Nat.add_mul,Nat.one_mul,Nat.mul_comm]
      omega
  rw [headerOf,hk,Nat.mul_comm]

/-- `free s` is what the free list of slab `s` spells out. -/
structure Holds (layout : Layout) (c : SlabCache n) (free : Nat → List Nat) : Prop where
  nodup : c.slabList.Nodup
  grown : ∀ s, (c.slabs s).isSome = true → s ∈ c.slabList
  header : ∀ s ∈ c.slabList, ∃ b, c.slabs s = some b ∧ 0 < b.base ∧ layout.bytes ∣ b.base ∧
    s = b.base + layout.bytes - headerBytes ∧ b.total = layout.objs ∧
    b.inUse + (free s).length = layout.objs ∧ Threaded c.words b.freeList (free s)
  own : ∀ s ∈ c.slabList, ∀ x ∈ free s, x ∈ slots layout s
  halfway : ∀ s ∈ c.partialSlabs, free s ≠ [] ∧ (free s).length < layout.objs
  empty : ∀ s ∈ c.fullSlabs, free s = []
  whole : ∀ s ∈ c.freeSlabs, (free s).length = layout.objs
  slots : c.slabList.flatMap free ++ gather c.magazines ++ c.live ~ c.slabList.flatMap (slots layout)
  freeing : c.freeing.Nodup ∧ ∀ x ∈ c.freeing, x ∈ c.live
  room : ∀ cpu, (c.magazines cpu).length ≤ capacity

section
variable {c : SlabCache n} {free : Nat → List Nat} {s x : Nat}

section
variable (h : c.Holds layout free) (hl : layout.Ok) (hs : s ∈ c.slabList)
include h hl hs

theorem Holds.base : 0 < s + headerBytes - layout.bytes ∧ layout.bytes ∣ s + headerBytes - layout.bytes ∧
      s = s + headerBytes - layout.bytes + layout.bytes - headerBytes := by
  obtain ⟨b,-,hpos,hd,hsb,-⟩ := h.header s hs
  have hf := hl.fits
  have heq : s + headerBytes - layout.bytes = b.base := by omega
  rw [heq]
  exact ⟨hpos,hd,hsb⟩

theorem Holds.headerOf (hx : x ∈ SlabCache.slots layout s) : SlabCache.headerOf layout x = s := by
  obtain ⟨-,hd,heq⟩ := h.base hl hs
  rw [headerOf_object hl hd hx,← heq]

theorem Holds.positive (hx : x ∈ SlabCache.slots layout s) : x ≠ 0 := by
  have hb := (object_bounds hl hx).1
  have hp := (h.base hl hs).1
  omega

end

section
variable (h : c.Holds layout free)
include h

theorem Holds.slots_nodup (hl : layout.Ok) : (c.slabList.flatMap (SlabCache.slots layout)).Nodup := by
  refine nodup_flatMap.mpr ⟨fun s _ => objects_nodup hl _,?_⟩
  refine h.nodup.imp_of_mem fun hs ht hne x hxs hxt => hne ?_
  rw [← h.headerOf hl hs hxs,← h.headerOf hl ht hxt]

theorem Holds.once (hl : layout.Ok) : (c.slabList.flatMap free ++ gather c.magazines ++ c.live).Nodup :=
  h.slots.nodup_iff.mpr (h.slots_nodup hl)

theorem Holds.owner (hx : x ∈ c.live) : ∃ s ∈ c.slabList, x ∈ SlabCache.slots layout s :=
  mem_flatMap.mp (h.slots.subset (mem_append_right _ hx))

theorem Holds.live_not_free (hl : layout.Ok) (hx : x ∈ c.live) (hs : s ∈ c.slabList) : x ∉ free s := by
  intro hf
  have hd := (nodup_append'.mp (h.once hl)).2.2
  exact hd (mem_append_left _ (mem_flatMap.mpr ⟨s,hs,hf⟩)) hx

end

inductive Place where
  | half
  | full
  | whole
  deriving DecidableEq

def Place.slabs (c : SlabCache n) : Place → List Nat
  | .half => c.partialSlabs
  | .full => c.fullSlabs
  | .whole => c.freeSlabs

def Place.push (c : SlabCache n) (s : Nat) : Place → SlabCache n
  | .half => c.pushPartial s
  | .full => c.pushFull s
  | .whole => c.pushFree s

def Place.Fits (layout : Layout) (xs : List Nat) : Place → Prop
  | .half => xs ≠ [] ∧ xs.length < layout.objs
  | .full => xs = []
  | .whole => xs.length = layout.objs

theorem Holds.placed (h : c.Holds layout free) : (p : Place) → s ∈ p.slabs c → p.Fits layout (free s)
  | .half, hs => h.halfway s hs
  | .full, hs => h.empty s hs
  | .whole, hs => h.whole s hs

theorem Place.Fits.unique (hl : layout.Ok) {xs : List Nat} {p q : Place} (hp : p.Fits layout xs)
    (hq : q.Fits layout xs) : p = q := by
  have hobjs := hl.objs
  cases p <;> cases q <;> simp only [Place.Fits] at hp hq <;> first | rfl | grind

theorem slabs_moved (p q : Place) :
    q.slabs (p.push (c.unlink s) s) = (q.slabs c).erase s ++ if q = p then [s] else [] := by
  cases p <;> cases q <;> simp [Place.slabs,Place.push,pushPartial,pushFull,pushFree,unlink]

theorem slabList_eq : c.slabList = Place.half.slabs c ++ Place.full.slabs c ++ Place.whole.slabs c := rfl

theorem mem_slabList : s ∈ c.slabList ↔ ∃ p : Place, s ∈ p.slabs c := by
  rw [slabList_eq]
  simp only [mem_append]
  constructor
  · rintro ((hs | hs) | hs)
    all_goals exact ⟨_,hs⟩
  rintro ⟨p,hs⟩
  cases p with
  | half => exact .inl (.inl hs)
  | full => exact .inl (.inr hs)
  | whole => exact .inr hs

theorem slabList_moved (hnd : c.slabList.Nodup) (hs : s ∈ c.slabList) (p : Place) :
    (p.push (c.unlink s) s).slabList ~ c.slabList := by
  rw [perm_iff_count]
  intro x
  have h1 := nodup_iff_count_le_one.mp hnd x
  have h2 : 0 < c.slabList.count s := count_pos_iff.mpr hs
  simp only [slabList_eq,slabs_moved,count_append,count_erase,beq_iff_eq] at h1 h2 ⊢
  by_cases hx : s = x
  · subst hx
    cases p <;> simp <;> omega
  · cases p <;> simp [hx]

section
variable (h : c.Holds layout free)
include h

theorem Holds.slabs_nodup (p : Place) : (p.slabs c).Nodup := by
  obtain ⟨h1,h2,-⟩ := nodup_append'.mp h.nodup
  obtain ⟨h3,h4,-⟩ := nodup_append'.mp h1
  cases p with
  | half => exact h3
  | full => exact h4
  | whole => exact h2

/-- One slab changes its free list and goes to the list that this calls for, or stays there; and objects move
between it, the magazines and the holders. -/
theorem Holds.change (hl : layout.Ok) (hs : s ∈ c.slabList) {c' : SlabCache n} {b' : Slab} {xs : List Nat}
    (p : Place) (hfits : p.Fits layout xs)
    (hplace : (∀ q : Place, q.slabs c' = q.slabs (p.push (c.unlink s) s)) ∨
      p.Fits layout (free s) ∧ ∀ q : Place, q.slabs c' = q.slabs c)
    (hheader : c'.slabs = update c.slabs s (some b'))
    (hb : 0 < b'.base ∧ layout.bytes ∣ b'.base ∧ s = b'.base + layout.bytes - headerBytes ∧
      b'.total = layout.objs ∧ b'.inUse + xs.length = layout.objs ∧ Threaded c'.words b'.freeList xs)
    (hwords : ∀ t ∈ c.slabList, t ≠ s → ∀ x ∈ free t, c'.words x = c.words x)
    (hown : ∀ x ∈ xs, x ∈ SlabCache.slots layout s)
    (hmove : xs ++ gather c'.magazines ++ c'.live ~ free s ++ gather c.magazines ++ c.live)
    (hfreeing : c'.freeing.Nodup ∧ ∀ x ∈ c'.freeing, x ∈ c'.live)
    (hroom : ∀ cpu, (c'.magazines cpu).length ≤ capacity) :
    c'.Holds layout (update free s xs) := by
  have hlist : c'.slabList ~ c.slabList := by
    rcases hplace with hq | ⟨-,hq⟩
    · rw [slabList_eq,hq,hq,hq]
      exact slabList_moved h.nodup hs p
    · rw [slabList_eq,hq,hq,hq,slabList_eq]
  have hplaced : ∀ (q : Place) (t : Nat), t ∈ q.slabs c' → q.Fits layout (update free s xs t) := by
    intro q t ht
    by_cases hts : t = s
    · subst hts
      rw [update_self]
      rcases hplace with hq | ⟨hold,hq⟩
      · rw [hq,slabs_moved,mem_append,(h.slabs_nodup q).mem_erase_iff] at ht
        split at ht
        · rename_i hqp
          exact hqp ▸ hfits
        · simp at ht
      · rw [hq] at ht
        exact (h.placed q ht).unique hl hold ▸ hfits
    rw [update_of_ne hts]
    refine h.placed q ?_
    rcases hplace with hq | ⟨-,hq⟩
    · rw [hq,slabs_moved,mem_append] at ht
      rcases ht with ht | ht
      · exact mem_of_mem_erase ht
      split at ht
      · exact absurd (mem_singleton.mp ht) hts
      · cases ht
    · rwa [hq] at ht
  refine ⟨hlist.nodup_iff.mpr h.nodup,fun t ht => ?_,fun t ht => ?_,fun t ht => ?_,hplaced .half,hplaced .full,
    hplaced .whole,?_,hfreeing,hroom⟩
  · rw [hlist.mem_iff]
    by_cases hts : t = s
    · exact hts ▸ hs
    rw [hheader,update_of_ne hts] at ht
    exact h.grown t ht
  · have ht' := hlist.mem_iff.mp ht
    rw [hheader]
    by_cases hts : t = s
    · subst hts
      simpa using hb
    obtain ⟨b,h1,h2,h3,h4,h5,h6,h7⟩ := h.header t ht'
    rw [update_of_ne hts,update_of_ne hts]
    exact ⟨b,h1,h2,h3,h4,h5,h6,h7.congr (hwords t ht' hts)⟩
  · by_cases hts : t = s
    · subst hts
      simpa using hown
    · rw [update_of_ne hts]
      exact h.own t (hlist.mem_iff.mp ht)
  rw [perm_iff_count]
  intro x
  have h1 := (hlist.flatMap_right (update free s xs)).count_eq x
  have h2 := (flatMap_update h.nodup hs free xs).count_eq x
  have h3 := (hlist.flatMap_right (SlabCache.slots layout)).count_eq x
  have h4 := h.slots.count_eq x
  have h5 := hmove.count_eq x
  simp only [count_append] at h1 h2 h3 h4 h5 ⊢
  omega

theorem alloc_holds (cpu : Fin n) :
    ∃ c', c.step layout (.alloc cpu) = some c' ∧ c'.Holds layout free := by
  simp only [step]
  split
  · rename_i obj rest hm
    have hpop := gather_pop hm
    refine ⟨_,rfl,h.nodup,h.grown,h.header,h.own,h.halfway,h.empty,h.whole,?_,⟨h.freeing.1,?_⟩,fun i => ?_⟩
    · refine .trans ?_ h.slots
      rw [perm_iff_count]
      intro x
      have h1 := hpop.count_eq x
      change (c.slabList.flatMap free ++ gather (update c.magazines cpu rest) ++
        obj :: c.live).count x = _
      simp only [count_append,count_cons] at h1 ⊢
      omega
    · exact fun x hx => mem_cons_of_mem _ (h.freeing.2 x hx)
    have hr := h.room cpu
    rw [hm,length_cons] at hr
    by_cases hi : i = cpu
    · subst hi
      simp only [update_self]
      omega
    · simpa [hi] using h.room i
  · exact ⟨_,rfl,h.nodup,h.grown,h.header,h.own,h.halfway,h.empty,h.whole,h.slots,h.freeing,h.room⟩

theorem free_holds (cpu : Fin n) {ptr : Nat} (hv : c.ValidFor layout (.free cpu ptr)) :
    ∃ c', c.step layout (.free cpu ptr) = some c' ∧ c'.Holds layout free := by
  simp only [step]
  split
  · exact ⟨c,rfl,h⟩
  rename_i h0
  obtain ⟨hlive,hnot⟩ := hv.resolve_left h0
  split
  · refine ⟨_,rfl,h.nodup,h.grown,h.header,h.own,h.halfway,h.empty,h.whole,?_,⟨h.freeing.1,?_⟩,fun i => ?_⟩
    · refine .trans ?_ h.slots
      rw [perm_iff_count]
      intro x
      have h1 := (gather_push c.magazines cpu ptr).count_eq x
      have h2 := (perm_cons_erase hlive).count_eq x
      change (c.slabList.flatMap free ++ gather (update c.magazines cpu (ptr :: c.magazines cpu)) ++
        c.live.erase ptr).count x = _
      simp only [count_append,count_cons] at h1 h2 ⊢
      omega
    · intro x hx
      exact (mem_erase_of_ne (ne_of_mem_of_not_mem hx hnot)).mpr (h.freeing.2 x hx)
    by_cases hi : i = cpu
    · subst hi
      simp only [update_self,length_cons]
      omega
    · simpa [hi] using h.room i
  refine ⟨_,rfl,h.nodup,h.grown,h.header,h.own,h.halfway,h.empty,h.whole,h.slots,
    ⟨nodup_cons.mpr ⟨hnot,h.freeing.1⟩,fun x hx => ?_⟩,h.room⟩
  rcases mem_cons.mp hx with rfl | hx
  · exact hlive
  · exact h.freeing.2 x hx

theorem write_holds (hl : layout.Ok) {obj value : Nat} (hv : c.ValidFor layout (.write obj value)) :
    ∃ c', c.step layout (.write obj value) = some c' ∧ c'.Holds layout free := by
  refine ⟨_,rfl,h.nodup,h.grown,fun s hs => ?_,h.own,h.halfway,h.empty,h.whole,h.slots,h.freeing,h.room⟩
  obtain ⟨b,h1,h2,h3,h4,h5,h6,h7⟩ := h.header s hs
  refine ⟨b,h1,h2,h3,h4,h5,h6,h7.congr fun x hx => update_of_ne ?_ _ _⟩
  exact ne_of_mem_of_not_mem hx (h.live_not_free hl hv.1 hs)

end

theorem pop_eq {b : Slab} (hb : c.slabs s = some b) : c.pop s = some (b.freeList,c.setSlab s
      { b with freeList := c.words b.freeList, inUse := (b.inUse+1) % 2^16 }) := by
  simp [pop,hb]

def HeaderOk (layout : Layout) (words : Nat → Nat) (s : Nat) (b : Slab) (xs : List Nat) : Prop :=
  0 < b.base ∧ layout.bytes ∣ b.base ∧ s = b.base + layout.bytes - headerBytes ∧
    b.total = layout.objs ∧ b.inUse + xs.length = layout.objs ∧ Threaded words b.freeList xs

section
variable (h : c.Holds layout free) (hl : layout.Ok)
include h hl

theorem Holds.popped (hs : s ∈ c.slabList) {obj : Nat} {rest : List Nat} (hf : free s = obj :: rest) :
    ∃ b, c.slabs s = some b ∧ b.freeList = obj ∧ HeaderOk layout c.words s
      { b with freeList := c.words obj, inUse := (b.inUse+1) % 2^16 } rest := by
  obtain ⟨b,h1,h2,h3,h4,h5,h6,h7⟩ := h.header s hs
  rw [hf] at h6 h7
  have hfew := hl.few
  rw [length_cons] at h6
  have hmod : (b.inUse+1) % 2^16 = b.inUse+1 := Nat.mod_eq_of_lt (by omega)
  refine ⟨b,h1,h7.1,h2,h3,h4,h5,?_,h7.2.2⟩
  simp only [hmod]
  omega

theorem Holds.taken (hs : s ∈ c.slabList) (hne : free s ≠ []) :
    ∃ b rest, c.slabs s = some b ∧ free s = b.freeList :: rest ∧ b.freeList ≠ 0 ∧
      (c.words b.freeList = 0 ↔ rest = []) ∧ ∀ (c' : SlabCache n) (p : Place), p.Fits layout rest →
      (∀ q : Place, q.slabs c' = q.slabs (p.push (c.unlink s) s)) ∨
        p.Fits layout (free s) ∧ (∀ q : Place, q.slabs c' = q.slabs c) →
      c'.slabs = update c.slabs s
        (some { b with freeList := c.words b.freeList, inUse := (b.inUse+1) % 2^16 }) →
      c'.words = c.words → c'.magazines = c.magazines → c'.live = b.freeList :: c.live → c'.freeing = c.freeing →
      c'.Holds layout (update free s rest) := by
  obtain ⟨obj,rest,hf⟩ := exists_cons_of_ne_nil hne
  obtain ⟨b,hb,rfl,hb'⟩ := h.popped hl hs hf
  refine ⟨b,rest,hb,hf,h.positive hl hs (h.own s hs _ (by simp [hf])),hb'.2.2.2.2.2.head_zero,
    fun c' p hfits hplace hheader hwords hmag hlive hfreeing => ?_⟩
  refine h.change hl hs p hfits hplace hheader (by rw [hwords]; exact hb') (fun _ _ _ _ _ => by rw [hwords])
    (fun x hx => h.own s hs x (by simp [hf,hx])) ?_ ?_ (by rw [hmag]; exact h.room)
  · rw [hmag,hlive,hf,perm_iff_count]
    intro x
    simp only [count_append,count_cons]
    omega
  · rw [hfreeing,hlive]
    exact ⟨h.freeing.1,fun x hx => mem_cons_of_mem _ (h.freeing.2 x hx)⟩

theorem allocPartial_holds {tail : List Nat} (hp : c.partialSlabs = s :: tail) (pages : Nat) :
    ∃ obj c', c.allocFromSlab layout pages = some (obj,c') ∧ obj ≠ 0 ∧
      ∃ free', Holds layout { c' with live := obj :: c'.live, slow := c'.slow-1 } free' := by
  have hsp : s ∈ c.partialSlabs := by simp [hp]
  obtain ⟨hne,hlt⟩ := h.halfway s hsp
  obtain ⟨b,rest,hb,hf,h0,hzero,hchange⟩ := h.taken hl (mem_slabList.mpr ⟨.half,hsp⟩) hne
  have hlen : rest.length < layout.objs := by
    rw [hf,length_cons] at hlt
    omega
  have heq : c.allocFromSlab layout pages = some (b.freeList,
      if c.words b.freeList = 0 then ((c.setSlab s { b with
        freeList := c.words b.freeList, inUse := (b.inUse+1) % 2^16 }).unlink s).pushFull s
      else c.setSlab s { b with
        freeList := c.words b.freeList, inUse := (b.inUse+1) % 2^16 }) := by
    simp [allocFromSlab,hp,pop_eq hb,setSlab]
  refine ⟨b.freeList,_,heq,h0,update free s rest,?_⟩
  split
  · rename_i hz
    exact hchange _ .full (hzero.mp hz) (.inl fun q => by cases q <;> rfl) rfl rfl rfl rfl rfl
  rename_i hz
  exact hchange _ .half ⟨fun hnil => hz (hzero.mpr hnil),hlen⟩ (.inr ⟨⟨hne,hlt⟩,fun q => by cases q <;> rfl⟩)
    rfl rfl rfl rfl rfl

theorem takeFree_holds (hsf : s ∈ c.freeSlabs) : ∃ obj c', (c.unlink s).pop s = some (obj,c') ∧ obj ≠ 0 ∧
      ∃ free', Holds layout { c'.pushPartial s with
        live := obj :: c'.live, slow := c'.slow-1 } free' := by
  have hwhole := h.whole s hsf
  have hobjs := hl.objs
  have hne : free s ≠ [] := fun hnil => by simp [hnil] at hwhole; omega
  obtain ⟨b,rest,hb,hf,h0,-,hchange⟩ := h.taken hl (mem_slabList.mpr ⟨.whole,hsf⟩) hne
  rw [hf,length_cons] at hwhole
  refine ⟨b.freeList,_,pop_eq (c := c.unlink s) hb,h0,update free s rest,
    hchange _ .half ⟨fun hnil => ?_,by omega⟩ (.inl fun q => by cases q <;> rfl) rfl rfl rfl rfl rfl⟩
  rw [hnil,length_nil] at hwhole
  omega

end

theorem thread_spec {xs ys : List Nat} {words : Nat → Nat} {head : Nat}
    (h : Threaded words head ys) (hnd : xs.Nodup) (hxs : ∀ x ∈ xs, x ∉ ys ∧ x ≠ 0) :
    let r := xs.foldl threadObject (words,head)
    Threaded r.1 r.2 (xs.reverse ++ ys) ∧ ∀ z, z ∉ xs → r.1 z = words z := by
  induction xs generalizing words head ys with
  | nil => exact ⟨h,fun _ _ => rfl⟩
  | cons x xs ih =>
    obtain ⟨hx,hnd⟩ := nodup_cons.mp hnd
    obtain ⟨hxy,hx0⟩ := hxs x (by simp)
    have hr := ih (h.push hx0 hxy) hnd fun z hz => by
      obtain ⟨h1,h2⟩ := hxs z (by simp [hz])
      exact ⟨by simp [h1,ne_of_mem_of_not_mem hz hx],h2⟩
    refine ⟨by simpa [threadObject] using hr.1,fun z hz => ?_⟩
    simp only [mem_cons,not_or] at hz
    exact (hr.2 z hz.2).trans (update_of_ne hz.1 _ _)

theorem grow_holds (h : c.Holds layout free) (hl : layout.Ok) {pages : Nat} (h0 : pages ≠ 0)
    (hd : layout.bytes ∣ pages) (hfresh : ∀ s ∈ c.slabList, pages ≠ s + headerBytes - layout.bytes) :
    Holds layout ((c.grow layout pages).2.pushFree (c.grow layout pages).1)
      (update free (c.grow layout pages).1 (objects layout pages).reverse) := by
  have hfits := hl.fits
  have hs : ∀ t ∈ c.slabList, t ≠ pages + layout.bytes - headerBytes := by
    intro t ht heq
    have hne := hfresh t ht
    omega
  have hpos : ∀ x ∈ objects layout pages, x ≠ 0 := by
    intro x hx
    have hb := (object_bounds hl hx).1
    omega
  have hloop := thread_spec (show Threaded c.words 0 [] from rfl) (objects_nodup hl pages)
    fun x hx => ⟨by simp,hpos x hx⟩
  have hold : ∀ t ∈ c.slabList, ∀ x ∈ free t, x ∉ objects layout pages := by
    intro t ht x hx hnew
    refine hs t ht ?_
    rw [← h.headerOf hl ht (h.own t ht x hx),headerOf_object hl hd hnew]
  simp only [grow]
  generalize (objects layout pages).foldl threadObject (c.words,0) = r at hloop ⊢
  obtain ⟨hthread,hwords⟩ := hloop
  generalize hsdef : pages + layout.bytes - headerBytes = s at hs ⊢
  have hslots : slots layout s = objects layout pages := by
    rw [slots,show s + headerBytes - layout.bytes = pages by omega]
  have hnot : s ∉ c.slabList := fun hm => hs s hm rfl
  have hmem : s ∉ c.partialSlabs ∧ s ∉ c.fullSlabs ∧ s ∉ c.freeSlabs := by
    simpa [slabList,and_assoc] using hnot
  generalize hc' : ({ c with words := r.1 }.setSlab s ⟨pages,r.2,0,layout.objs % 2^16⟩).pushFree s = c'
  have hperm : c'.slabList ~ s :: c.slabList := by
    rw [← hc',perm_iff_count]
    intro x
    simp only [slabList,pushFree,setSlab,count_append,count_cons,count_nil]
    omega
  have hslab : c'.slabs = update c.slabs s (some ⟨pages,r.2,0,layout.objs % 2^16⟩) :=
    hc' ▸ rfl
  have hmod : layout.objs % 2^16 = layout.objs := Nat.mod_eq_of_lt hl.few
  have hlen : (objects layout pages).reverse.length = layout.objs := by
    rw [length_reverse,objects_length]
  have hc : c'.words = r.1 ∧ c'.partialSlabs = c.partialSlabs ∧ c'.fullSlabs = c.fullSlabs ∧
      c'.freeSlabs = c.freeSlabs ++ [s] ∧ c'.magazines = c.magazines ∧ c'.live = c.live ∧
      c'.freeing = c.freeing := by
    rw [← hc']
    exact ⟨rfl,rfl,rfl,rfl,rfl,rfl,rfl⟩
  obtain ⟨hc1,hc2,hc3,hc4,hc5,hc6,hc7⟩ := hc
  refine ⟨hperm.nodup_iff.mpr (nodup_cons.mpr ⟨hnot,h.nodup⟩),fun t ht => ?_,fun t ht => ?_,
    fun t ht => ?_,fun t ht => ?_,fun t ht => ?_,fun t ht => ?_,?_,
    by rw [hc6,hc7]; exact h.freeing,by rw [hc5]; exact h.room⟩
  · rw [hperm.mem_iff,mem_cons]
    by_cases hts : t = s
    · exact .inl hts
    rw [hslab,update_of_ne hts] at ht
    exact .inr (h.grown t ht)
  · rw [hslab,hc1]
    rcases mem_cons.mp (hperm.mem_iff.mp ht) with rfl | ht
    · rw [update_self,update_self,hlen,hmod]
      refine ⟨_,rfl,Nat.pos_of_ne_zero h0,hd,hsdef.symm,rfl,Nat.zero_add _,?_⟩
      simpa using hthread
    rw [update_of_ne (hs t ht),update_of_ne (hs t ht)]
    obtain ⟨b,h1,h2,h3,h4,h5,h6,h7⟩ := h.header t ht
    exact ⟨b,h1,h2,h3,h4,h5,h6,h7.congr fun x hx => hwords x (hold t ht x hx)⟩
  · rcases mem_cons.mp (hperm.mem_iff.mp ht) with rfl | ht
    · simp [hslots]
    rw [update_of_ne (hs t ht)]
    exact h.own t ht
  · rw [hc2] at ht
    rw [update_of_ne (ne_of_mem_of_not_mem ht hmem.1)]
    exact h.halfway t ht
  · rw [hc3] at ht
    rw [update_of_ne (ne_of_mem_of_not_mem ht hmem.2.1)]
    exact h.empty t ht
  · rw [hc4] at ht
    rcases mem_append.mp ht with ht | ht
    · rw [update_of_ne (ne_of_mem_of_not_mem ht hmem.2.2)]
      exact h.whole t ht
    · obtain rfl := mem_singleton.mp ht
      rw [update_self,hlen]
  have hrest : c.slabList.flatMap (update free s (objects layout pages).reverse) =
      c.slabList.flatMap free :=
    flatMap_congr fun t ht => update_of_ne (hs t ht) _ _
  have h1 := hperm.flatMap_right (update free s (objects layout pages).reverse)
  have h2 := hperm.flatMap_right (slots layout)
  rw [flatMap_cons,update_self,hrest] at h1
  rw [flatMap_cons,hslots] at h2
  rw [hc5,hc6,perm_iff_count]
  intro x
  have h1x := h1.count_eq x
  have h2x := h2.count_eq x
  have h3x := h.slots.count_eq x
  simp only [count_append,count_reverse] at h1x h2x h3x ⊢
  omega

theorem unlink_pushFree (hnot : s ∉ c.slabList) : (c.pushFree s).unlink s = c := by
  simp only [slabList,mem_append,not_or] at hnot
  obtain ⟨⟨h1,h2⟩,h3⟩ := hnot
  simp only [unlink,pushFree,erase_of_not_mem h1,erase_of_not_mem h2,
    erase_append_right _ h3,erase_cons_head,append_nil]

section
variable (h : c.Holds layout free) (hl : layout.Ok)
include h hl

theorem allocFromSlab_holds {pages : Nat} (hv : c.ValidFor layout (.allocSlow pages)) :
    ∃ obj c', c.allocFromSlab layout pages = some (obj,c') ∧ ∃ free', Holds layout { c' with
        slow := c'.slow-1, live := if obj = 0 then c'.live else obj :: c'.live } free' := by
  cases hp : c.partialSlabs with
  | cons s tail =>
    obtain ⟨obj,c',heq,h0,free',hh⟩ := allocPartial_holds h hl hp pages
    exact ⟨obj,c',heq,free',by rw [if_neg h0]; exact hh⟩
  | nil =>
    cases hf : c.freeSlabs with
    | cons s tail =>
      obtain ⟨obj,c',heq,h0,free',hh⟩ := takeFree_holds h hl (show s ∈ c.freeSlabs by simp [hf])
      refine ⟨obj,_,by simp only [allocFromSlab,hp,hf,heq,Option.bind_eq_bind,Option.bind_some]; rfl,
        free',?_⟩
      rw [if_neg h0]
      exact hh
    | nil =>
      by_cases h0 : pages = 0
      · refine ⟨0,c,by simp [allocFromSlab,hp,hf,h0],free,?_⟩
        exact ⟨h.nodup,h.grown,h.header,h.own,h.halfway,h.empty,h.whole,h.slots,h.freeing,h.room⟩
      obtain ⟨hd,hfresh⟩ := hv.resolve_left h0
      have hg := grow_holds h hl h0 hd hfresh
      have hnot : (c.grow layout pages).1 ∉ (c.grow layout pages).2.slabList := by
        intro hm
        have hne := hfresh _ hm
        have hfits := hl.fits
        simp only [grow] at hne
        omega
      obtain ⟨obj,c',heq,hobj,free',hh⟩ := takeFree_holds hg hl
        (show (c.grow layout pages).1 ∈ _ from mem_append_right _ (by simp))
      rw [unlink_pushFree hnot] at heq
      refine ⟨obj,_,by
        simp only [allocFromSlab,hp,hf,h0,if_false,heq,Option.bind_eq_bind,Option.bind_some]; rfl,
        free',?_⟩
      rw [if_neg hobj]
      exact hh

theorem freeToSlab_holds {ptr : Nat} (hx : ptr ∈ c.live) (hfr : ptr ∈ c.freeing) :
    ∃ c', c.freeToSlab layout ptr = some c' ∧ ∃ free', Holds layout { c' with
        freeing := c'.freeing.erase ptr, live := c'.live.erase ptr } free' := by
  obtain ⟨s,hs,hslot⟩ := h.owner hx
  have hhead := h.headerOf hl hs hslot
  have h0 := h.positive hl hs hslot
  have hnot : ∀ t ∈ c.slabList, ptr ∉ free t := fun t ht => h.live_not_free hl hx ht
  obtain ⟨b,hb,h2,h3,h4,h5,h6,h7⟩ := h.header s hs
  -- the object was missing from the slab's list
  have hmissing : (free s).length < layout.objs := by
    have hnd : (free s).Nodup := by
      have hd := (nodup_append'.mp (nodup_append'.mp (h.once hl)).1).1
      exact (nodup_flatMap.mp hd).1 s hs
    have hsub : ptr :: free s ⊆ slots layout s := by
      intro x hx
      rcases mem_cons.mp hx with rfl | hx
      · exact hslot
      · exact h.own s hs x hx
    have hle := (subperm_of_subset (nodup_cons.mpr ⟨hnot s hs,hnd⟩) hsub).length_le
    rw [length_cons,slots,objects_length] at hle
    omega
  have hfew := hl.few
  have hmod : (b.inUse + (2^16-1)) % 2^16 = b.inUse - 1 := by omega
  have hb' : HeaderOk layout (update c.words ptr b.freeList) s
      { b with freeList := ptr, inUse := b.inUse - 1 } (ptr :: free s) := by
    refine ⟨h2,h3,h4,h5,?_,h7.push h0 (hnot s hs)⟩
    rw [length_cons]
    simp only
    omega
  have hwords : ∀ t ∈ c.slabList, t ≠ s → ∀ x ∈ free t, update c.words ptr b.freeList x = c.words x :=
    fun t ht _ x hx => update_of_ne (ne_of_mem_of_not_mem hx (hnot t ht)) _ _
  have hown : ∀ x ∈ ptr :: free s, x ∈ slots layout s := by
    intro x hx
    rcases mem_cons.mp hx with rfl | hx
    · exact hslot
    · exact h.own s hs x hx
  have hmove : ptr :: free s ++ gather c.magazines ++ c.live.erase ptr ~
      free s ++ gather c.magazines ++ c.live := by
    rw [perm_iff_count]
    intro x
    have hx' := (perm_cons_erase hx).count_eq x
    simp only [count_append,count_cons] at hx' ⊢
    omega
  have hfreeing : (c.freeing.erase ptr).Nodup ∧ ∀ x ∈ c.freeing.erase ptr, x ∈ c.live.erase ptr := by
    refine ⟨h.freeing.1.erase ptr,fun x hx => ?_⟩
    obtain ⟨hne,hx⟩ := h.freeing.1.mem_erase_iff.mp hx
    exact (mem_erase_of_ne hne).mpr (h.freeing.2 x hx)
  have hlen : (ptr :: free s).length = (free s).length + 1 := rfl
  refine ⟨_,by simp only [freeToSlab,hhead,hb,Option.bind_eq_bind,Option.bind_some,hmod]; rfl,
    update free s (ptr :: free s),?_⟩
  split
  · exact h.change hl hs .whole (show _ = _ by omega) (.inl fun q => by cases q <;> rfl) rfl hb' hwords hown hmove
      hfreeing h.room
  have hhalf : Place.half.Fits layout (ptr :: free s) := ⟨by simp,by omega⟩
  split
  · exact h.change hl hs .half hhalf (.inl fun q => by cases q <;> rfl) rfl hb' hwords hown hmove hfreeing h.room
  have hhalf' : Place.half.Fits layout (free s) := ⟨fun hnil => by rw [hnil,length_nil] at h6; omega,hmissing⟩
  exact h.change hl hs .half hhalf (.inr ⟨hhalf',fun q => by cases q <;> rfl⟩) rfl hb' hwords hown hmove hfreeing
    h.room

theorem step_holds {e : Event n} (hv : c.ValidFor layout e) :
    ∃ c', c.step layout e = some c' ∧ ∃ free', c'.Holds layout free' := by
  cases e with
  | alloc cpu =>
    obtain ⟨c',he,hh⟩ := alloc_holds h cpu
    exact ⟨c',he,free,hh⟩
  | allocSlow pages =>
    simp only [step]
    split
    · exact ⟨c,rfl,free,h⟩
    obtain ⟨obj,c',he,free',hh⟩ := allocFromSlab_holds h hl hv
    exact ⟨_,by simp only [he,Option.bind_eq_bind,Option.bind_some]; rfl,free',hh⟩
  | free cpu ptr =>
    obtain ⟨c',he,hh⟩ := free_holds h cpu hv
    exact ⟨c',he,free,hh⟩
  | freeSlow ptr =>
    simp only [step]
    split
    · rename_i hfr
      obtain ⟨c',he,free',hh⟩ := freeToSlab_holds h hl (h.freeing.2 ptr hfr) hfr
      exact ⟨_,by simp only [he,Option.bind_eq_bind,Option.bind_some]; rfl,free',hh⟩
    · exact ⟨c,rfl,free,h⟩
  | write obj value =>
    obtain ⟨c',he,hh⟩ := write_holds h hl hv
    exact ⟨c',he,free,hh⟩

end

theorem empty_holds (layout : Layout) (n : Nat) : (empty n).Holds layout fun _ => [] := by
  have hnil : gather (fun _ : Fin n => ([] : List Nat)) = [] := by
    rw [eq_nil_iff_forall_not_mem]
    simp [mem_gather]
  refine ⟨.nil,?_,?_,?_,?_,?_,?_,?_,⟨.nil,?_⟩,?_⟩
  all_goals simp [empty,slabList,hnil]

end

theorem run_holds {layout : Layout} (hl : layout.Ok) (n : Nat) (es : List (Event n))
    (hok : (machine layout n).Along (Valid layout) (machine layout n).initial es) :
    ∃ c, (machine layout n).run es = some c ∧ ∃ free, c.Holds layout free := by
  refine (machine layout n).runFrom_invariant (Valid layout)
    (I := fun o => ∃ c, o = some c ∧ ∃ free, SlabCache.Holds layout c free) ?_ ?_ es hok
  · rintro o e ⟨c,rfl,free,h⟩ hv
    exact step_holds h hl (hv c rfl)
  · exact ⟨_,rfl,_,empty_holds layout n⟩

end SlabCache

/-- In every run of a size class's cache no access fails, and each object is on the free list of its slab, in one
magazine or live, and not in two of these; a slab's counts and its list agree with its free list. -/
theorem slab_conservation (size : Nat) (hsize : size ∈ sizeClasses) (n : Nat)
    (es : List (SlabCache.Event n))
    (hok : (machine (classLayout size) n).Along (SlabCache.Valid (classLayout size))
      (machine (classLayout size) n).initial es) :
    let layout := classLayout size
    ∃ c, (machine layout n).run es = some c ∧ ∃ free : Nat → List Nat,
      (c.slabList.flatMap free ++ gather c.magazines ++ c.live ~
        c.slabList.flatMap (slots layout) ∧
        (c.slabList.flatMap (slots layout)).Nodup ∧
        ∀ s ∈ c.slabList, ∀ x ∈ free s, x ∈ slots layout s) ∧
      (c.slabList.Nodup ∧ ∀ s, (c.slabs s).isSome = true ↔ s ∈ c.slabList) ∧
      (∀ s b, c.slabs s = some b → b.total = layout.objs ∧ b.inUse + (free s).length = b.total ∧
        Threaded c.words b.freeList (free s) ∧ (s ∈ c.partialSlabs → free s ≠ []) ∧
        (s ∈ c.fullSlabs → free s = []) ∧ (s ∈ c.freeSlabs → b.inUse = 0)) ∧
      ∀ s ∈ c.slabList, ∀ x ∈ slots layout s,
        headerOf layout x = s ∧ x + layout.objSize ≤ s := by
  intro layout
  have hl : layout.Ok := classLayout_ok hsize
  obtain ⟨c,hrun,free,h⟩ := run_holds hl n es hok
  refine ⟨c,hrun,free,⟨h.slots,h.slots_nodup hl,h.own⟩,⟨h.nodup,fun s => ⟨h.grown s,fun hs => ?_⟩⟩,
    fun s b hb => ?_,fun s hs x hx => ⟨h.headerOf hl hs hx,?_⟩⟩
  · obtain ⟨b,hb,-⟩ := h.header s hs
    simp [hb]
  · obtain ⟨b',hb',-,-,-,h5,h6,h7⟩ := h.header s (h.grown s (by simp [hb]))
    obtain rfl : b' = b := by
      rw [hb] at hb'
      exact (Option.some.inj hb').symm
    refine ⟨h5,by rw [h5]; exact h6,h7,fun hp => (h.halfway s hp).1,fun hf => h.empty s hf,fun hf => ?_⟩
    have hw := h.whole s hf
    omega
  have hb := (object_bounds hl hx).2
  have heq := (h.base hl hs).2.2
  omega

namespace SlabCache

def passedOn (p q : Fin 2) : List (Event 2) :=
  [.alloc p,.allocSlow 0x8000,.write 0x8fd0 7,.alloc p,.allocSlow 0,.free q 0x8fd0,.alloc q,.free q 0]

end SlabCache

theorem slab_conservation_passedOn : ∃ c,
    (machine (classLayout 8) 2).run (passedOn 0 1) = some c ∧
    c.live = [0x8fd0,0x8fc8] ∧ (c.slabList.flatMap (slots (classLayout 8))).Nodup := by
  obtain ⟨c,hrun,free,⟨-,hnd,-⟩,-⟩ :=
    slab_conservation 8 (by decide) 2 (passedOn 0 1) (by decide +kernel)
  have hlive : ((machine (classLayout 8) 2).run (passedOn 0 1)).map
      live = some [0x8fd0,0x8fc8] := by decide +kernel
  refine ⟨c,hrun,?_,hnd⟩
  rw [hrun] at hlive
  exact Option.some.inj hlive

end Rucux.Memory
