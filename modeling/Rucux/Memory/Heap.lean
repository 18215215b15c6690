import Rucux.Memory.Buddy
import Mathlib.Data.List.Perm.Subperm
import Rucux.Lib.LinkedCells
import Rucux.Lib.Intervals

/-!
The kernel heap: blocks with a header in front, chained in address order within each run of
pages, and through a second pair of links in one list of free blocks. The memory is modelled
by the headers that can be read in it; reading anything else, or a free list that does not
end, makes a call fail.
-/

namespace Rucux.Memory
open Lib

/-- `block_header`; 0 is the null pointer. -/
structure Header where
  size : Nat
  isFree : Bool
  magic : Nat
  prevPhys : Nat
  nextPhys : Nat
  prevFree : Nat
  nextFree : Nat
  deriving DecidableEq

/-- `mem` are the headers that were written and not overwritten since, `runs` the first byte
and the length of each run of pages that the heap has obtained. -/
structure Heap where
  mem : Nat → Option Header
  freeList : Nat
  runs : List (Nat × Nat)

namespace Heap

def headerSize : Nat := 48

def heapMagic : Nat := 0xDEADC0DE

def write (h : Heap) (a : Nat) (f : Header → Header) : Option Heap :=
  (h.mem a).map fun b => { h with mem := Function.update h.mem a (some (f b)) }

def create (h : Heap) (a : Nat) (b : Header) : Heap :=
  { h with mem := fun x =>
      if x = a then some b
      else if x < a + headerSize ∧ a < x + headerSize then none
      else h.mem x }

def addToFreeList (h : Heap) (block : Nat) : Option Heap := do
  let h ← h.write block fun b => { b with prevFree := 0, nextFree := h.freeList }
  let h ← (if h.freeList = 0 then some h
    else h.write h.freeList fun b => { b with prevFree := block })
  return { h with freeList := block }

def removeFromFreeList (h : Heap) (block : Nat) : Option Heap := do
  let b ← h.mem block
  let h ← (if b.prevFree = 0 then some { h with freeList := b.nextFree }
    else h.write b.prevFree fun p => { p with nextFree := b.nextFree })
  if b.nextFree = 0 then some h
  else h.write b.nextFree fun n => { n with prevFree := b.prevFree }

def addRun (h : Heap) (base bytes : Nat) : Option Heap :=
  let head : Header := ⟨bytes - headerSize,true,heapMagic,0,0,0,0⟩
  { h.create base head with runs := (base,bytes) :: h.runs }.addToFreeList base

def init (initial : Nat) : Option Heap :=
  let h : Heap := ⟨fun _ => none,0,[]⟩
  if initial = 0 then some h else h.addRun initial (1024*pageSize)

/-- The walk over the free list in `kmalloc`, at most `fuel` blocks of it. -/
def firstFit (h : Heap) (size : Nat) : Nat → Nat → Option Nat
  | 0, _ => none
  | fuel+1, current =>
    if current = 0 then some 0
    else do
      let b ← h.mem current
      if b.size ≥ size then some current else h.firstFit size fuel b.nextFree

/-- No list of blocks is longer than the memory they are in. -/
def walkLimit (h : Heap) : Nat := (h.runs.map (·.2)).sum + 1

def splitOff (h : Heap) (current size : Nat) : Option Heap := do
  let b ← h.mem current
  let new := current + headerSize + size
  let h := h.create new ⟨b.size - size - headerSize,true,heapMagic,current,b.nextPhys,0,0⟩
  let h ← (if b.nextPhys = 0 then some h
    else h.write b.nextPhys fun n => { n with prevPhys := new })
  h.write current fun b => { b with nextPhys := new, size := size }

def take (h : Heap) (current size : Nat) : Option (Nat × Heap) := do
  let b ← h.mem current
  let h ← (if b.size ≥ (size + headerSize + 16) % 2^64 then do
      let h ← h.splitOff current size
      h.addToFreeList (current + headerSize + size)
    else some h)
  let h ← h.write current fun b => { b with isFree := false }
  let h ← h.removeFromFreeList current
  return (current + headerSize,h)

def roundUp (size : Nat) : Nat := (size+15) % 2^64 / 16 * 16

def expansionPages (size : Nat) : Nat :=
  max 16 ((size + headerSize + pageSize - 1) % 2^64 / pageSize)

/-- `kmalloc` for a rounded size. `grants` is what `alloc_pages` returns, in order; then it
returns null. -/
def kmallocRounded (h : Heap) (size : Nat) : List Nat → Option (Nat × Heap)
  | [] => do
    let current ← h.firstFit size h.walkLimit h.freeList
    if current = 0 then some (0,h) else h.take current size
  | new :: grants => do
    let current ← h.firstFit size h.walkLimit h.freeList
    if current = 0 then do
      let h ← h.addRun new (expansionPages size*pageSize)
      h.kmallocRounded size grants
    else h.take current size

def kmalloc (h : Heap) (size : Nat) (grants : List Nat) : Option (Nat × Heap) :=
  h.kmallocRounded (roundUp size) grants

def absorb (h : Heap) (block next : Nat) : Option Heap := do
  let n ← h.mem next
  let h ← h.write block fun b =>
    { b with size := b.size + headerSize + n.size, nextPhys := n.nextPhys }
  if n.nextPhys = 0 then some h
  else h.write n.nextPhys fun m => { m with prevPhys := block }

def coalesceNext (h : Heap) (header : Nat) : Option Heap := do
  let b ← h.mem header
  if b.nextPhys = 0 then some h
  else do
    let n ← h.mem b.nextPhys
    if n.isFree then do
      let h ← h.removeFromFreeList b.nextPhys
      h.absorb header b.nextPhys
    else some h

def coalescePrev (h : Heap) (header : Nat) : Option Heap := do
  let b ← h.mem header
  if b.prevPhys = 0 then some h
  else do
    let p ← h.mem b.prevPhys
    if p.isFree then do
      let h ← h.removeFromFreeList header
      h.absorb b.prevPhys header
    else some h

def kfree (h : Heap) (ptr : Nat) : Option Heap :=
  if ptr = 0 then some h
  else do
    let header := ptr - headerSize
    let b ← h.mem header
    if b.magic ≠ heapMagic then some h
    else if b.isFree then some h
    else do
      let h ← h.write header fun b => { b with isFree := true }
      let h ← h.addToFreeList header
      let h ← h.coalesceNext header
      h.coalescePrev header

/-- A caller may write anything to the bytes it was given. -/
def handOut (h : Heap) (ptr size : Nat) : Heap :=
  { h with mem := fun x => if x < ptr + size ∧ ptr < x + headerSize then none else h.mem x }

/-- `live` are the pointers returned and not freed since, with the sizes asked for; `freed`
are those that were freed and not returned again. -/
structure World where
  heap : Heap
  live : List (Nat × Nat)
  freed : List Nat

inductive Event where
  | kmalloc (size : Nat) (grants : List Nat)
  | kfree (ptr : Nat)

def payload (h : Heap) (ptr : Nat) : Nat := ((h.mem (ptr - headerSize)).map Header.size).getD 0

def World.step (w : World) : Event → Option World
  | .kmalloc size grants => do
    let (ptr,h) ← w.heap.kmalloc size grants
    if ptr = 0 then some { w with heap := h }
    else some ⟨h.handOut ptr (h.payload ptr),(ptr,size) :: w.live,w.freed.filter (· ≠ ptr)⟩
  | .kfree ptr => do
    let h ← w.heap.kfree ptr
    if ptr ∈ w.live.map Prod.fst then
      some ⟨h,w.live.filter (·.1 ≠ ptr),ptr :: w.freed⟩
    else some { w with heap := h }

def machine (initial : Nat) : Machine (Option World) Event :=
  ⟨(init initial).map (⟨·,[],[]⟩),fun w e => w.bind (·.step e)⟩

def Fresh (runs : List (Nat × Nat)) (bytes : Nat) : List Nat → Prop
  | [] => True
  | new :: grants => (0 < new ∧ pageSize ∣ new ∧ new + bytes ≤ 2^64 ∧
      ∀ r ∈ runs, r.1 + r.2 ≤ new ∨ new + bytes ≤ r.1) ∧ Fresh ((new,bytes) :: runs) bytes grants

/-- Pages from the page manager are fresh; a free is of null, of a live pointer, or of one
freed before whose header nobody has overwritten. -/
def World.Valid (w : World) : Event → Prop
  | .kmalloc size grants =>
    Fresh w.heap.runs (expansionPages (roundUp size)*pageSize) grants
  | .kfree ptr => ptr = 0 ∨ ptr ∈ w.live.map Prod.fst ∨
      ptr ∈ w.freed ∧ (w.heap.mem (ptr - headerSize)).isSome = true

def Valid (w : Option World) (e : Event) : Prop := ∀ v ∈ w, v.Valid e

instance decidableFresh (bytes : Nat) : (grants : List Nat) → (runs : List (Nat × Nat)) →
    Decidable (Fresh runs bytes grants)
  | [], _ => .isTrue trivial
  | new :: grants, runs =>
    have := decidableFresh bytes grants ((new,bytes) :: runs)
    inferInstanceAs (Decidable ((0 < new ∧ pageSize ∣ new ∧ new + bytes ≤ 2^64 ∧
      ∀ r ∈ runs, r.1 + r.2 ≤ new ∨ new + bytes ≤ r.1) ∧ Fresh ((new,bytes) :: runs) bytes grants))

instance (w : World) : (e : Event) → Decidable (w.Valid e)
  | .kmalloc _ _ => inferInstanceAs (Decidable (Fresh _ _ _))
  | .kfree ptr => inferInstanceAs (Decidable (ptr = 0 ∨ ptr ∈ w.live.map Prod.fst ∨
      ptr ∈ w.freed ∧ (w.heap.mem (ptr - headerSize)).isSome = true))

instance : (w : Option World) → (e : Event) → Decidable (Valid w e)
  | none, _ => .isTrue (by simp [Valid])
  | some w, e => decidable_of_iff (w.Valid e) (by simp [Valid])

end Heap

open Function List Option

namespace Heap

def block (h : Heap) (a : Nat) : Header := (h.mem a).getD ⟨0,false,0,0,0,0,0⟩

def extent (h : Heap) (a : Nat) : Nat := headerSize + (h.block a).size
def nextPhys (h : Heap) (a : Nat) : Nat := (h.block a).nextPhys
def prevPhys (h : Heap) (a : Nat) : Nat := (h.block a).prevPhys
def nextFree (h : Heap) (a : Nat) : Nat := (h.block a).nextFree
def prevFree (h : Heap) (a : Nat) : Nat := (h.block a).prevFree

def Present (h : Heap) (a : Nat) : Prop := (h.mem a).isSome = true

/-- The blocks of a run of pages: headers that follow each other from its first byte to its
last and point at each other. -/
structure Chained (h : Heap) (r : Nat × Nat) (xs : List Nat) : Prop where
  tiled : Tiled h.extent r.1 xs (r.1 + r.2)
  linked : Linked h.nextPhys h.prevPhys 0 xs 0
  header : ∀ a ∈ xs, h.Present a ∧ (h.block a).magic = heapMagic ∧ 16 ∣ (h.block a).size

/-- `tiles` are the blocks of the run that starts at each address, `free` is the free list. -/
structure Shaped (h : Heap) (tiles : Nat → List Nat) (free : List Nat) : Prop where
  pages : ∀ r ∈ h.runs, 0 < r.1 ∧ pageSize ∣ r.1 ∧ 0 < r.2 ∧ r.1 + r.2 ≤ 2^64
  apart : ∀ r ∈ h.runs, ∀ r' ∈ h.runs, r ≠ r' → r.1 + r.2 ≤ r'.1 ∨ r'.1 + r'.2 ≤ r.1
  chained : ∀ r ∈ h.runs, h.Chained r (tiles r.1)
  links : Linked h.nextFree h.prevFree 0 free 0
  head : h.freeList = free.headD 0
  nodup : free.Nodup
  inside : ∀ a ∈ free, ∃ r ∈ h.runs, a ∈ tiles r.1

def Tile (h : Heap) (tiles : Nat → List Nat) (a : Nat) : Prop := ∃ r ∈ h.runs, a ∈ tiles r.1

/-- A header that `kfree` takes for that of a free block, if it can still be read. -/
def Marked (h : Heap) (a : Nat) : Prop :=
  h.Present a → (h.block a).isFree = true ∧ (h.block a).magic = heapMagic

variable {h h' h'' : Heap} {tiles : Nat → List Nat} {free : List Nat} {a x y : Nat}

def put (h : Heap) (a : Nat) (b : Header) : Heap :=
  { h with mem := update h.mem a (some b) }

theorem Present.mem_eq (hp : h.Present a) : h.mem a = some (h.block a) := by
  obtain ⟨b,hb⟩ := isSome_iff_exists.mp hp
  simp [block,hb]

theorem Present.write_eq (hp : h.Present a) (f : Header → Header) :
    h.write a f = some (h.put a (f (h.block a))) := by
  simp [write,hp.mem_eq,put]

theorem block_put (a : Nat) (b : Header) (x : Nat) :
    (h.put a b).block x = if x = a then b else h.block x := by
  by_cases hx : x = a
  · simp [block,put,hx]
  · simp [block,put,hx]

theorem present_put (hp : h.Present a) (b : Header) (x : Nat) : (h.put a b).Present x ↔ h.Present x := by
  by_cases hx : x = a
  · subst hx
    simpa [Present,put] using hp
  · simp [Present,put,hx]

theorem create_self (a : Nat) (b : Header) : (h.create a b).mem a = some b := by simp [create]

theorem create_far (b : Header) (hx : x + headerSize ≤ a ∨ a + headerSize ≤ x) :
    (h.create a b).mem x = h.mem x := by
  have hne : x ≠ a := by
    rintro rfl
    simp only [headerSize] at hx
    omega
  simp only [create,hne,if_false]
  rw [if_neg (by omega)]

theorem Marked.create {b : Header} (hm : h.Marked x) (hb : b.isFree = true ∧ b.magic = heapMagic) :
    (h.create a b).Marked x := by
  unfold Marked Present block Heap.create at *
  dsimp only at *
  split
  · simpa using hb
  split
  · simp
  · exact hm

theorem Marked.put {b : Header} (hm : h.Marked x)
    (hb : x = a → b.isFree = true ∧ b.magic = heapMagic) : (h.put a b).Marked x := by
  unfold Marked
  rw [block_put]
  split
  · exact fun _ => hb ‹_›
  rename_i hx
  intro hp
  exact hm (by simpa [Present,Heap.put,hx] using hp)

structure Relinked (h h' : Heap) : Prop where
  runs : h'.runs = h.runs
  present : ∀ a, h'.Present a ↔ h.Present a
  size : ∀ a, (h'.block a).size = (h.block a).size
  isFree : ∀ a, (h'.block a).isFree = (h.block a).isFree
  magic : ∀ a, (h'.block a).magic = (h.block a).magic
  nextPhys : h'.nextPhys = h.nextPhys
  prevPhys : h'.prevPhys = h.prevPhys

theorem Relinked.trans (h1 : Relinked h h') (h2 : Relinked h' h'') : Relinked h h'' :=
  ⟨h2.runs.trans h1.runs,fun a => (h2.present a).trans (h1.present a),
    fun a => (h2.size a).trans (h1.size a),fun a => (h2.isFree a).trans (h1.isFree a),
    fun a => (h2.magic a).trans (h1.magic a),h2.nextPhys.trans h1.nextPhys,
    h2.prevPhys.trans h1.prevPhys⟩

theorem Relinked.setHead (hr : Relinked h h') (head : Nat) : Relinked h { h' with freeList := head } :=
  ⟨hr.runs,hr.present,hr.size,hr.isFree,hr.magic,hr.nextPhys,hr.prevPhys⟩

theorem Relinked.refl (h : Heap) : Relinked h h :=
  ⟨rfl,fun _ => .rfl,fun _ => rfl,fun _ => rfl,fun _ => rfl,rfl,rfl⟩

theorem write_links (hp : h.Present a) (f : Header → Header)
    (hf : ∀ b, f b = { b with prevFree := (f b).prevFree, nextFree := (f b).nextFree }) :
    ∃ h', h.write a f = some h' ∧ Relinked h h' ∧ h'.freeList = h.freeList ∧
      h'.nextFree = update h.nextFree a (f (h.block a)).nextFree ∧
      h'.prevFree = update h.prevFree a (f (h.block a)).prevFree := by
  have hb := hf (h.block a)
  have hsame : ∀ {β : Type} (g : Header → β), g (f (h.block a)) = g (h.block a) →
      ∀ x, g ((h.put a (f (h.block a))).block x) = g (h.block x) := by
    intro β g hg x
    rw [block_put]
    split
    · rw [hg,‹x = a›]
    · rfl
  refine ⟨_,hp.write_eq f,⟨rfl,present_put hp _,hsame (·.size) (by rw [hb]),hsame (·.isFree) (by rw [hb]),
    hsame (·.magic) (by rw [hb]),funext (hsame (·.nextPhys) (by rw [hb])),
    funext (hsame (·.prevPhys) (by rw [hb]))⟩,rfl,?_,?_⟩
  all_goals
    funext x
    simp only [Heap.nextFree,Heap.prevFree,block_put,update_apply]
    split
    all_goals rfl

theorem Relinked.marked (hr : Relinked h h') (hm : h.Marked a) : h'.Marked a := by
  intro hp
  rw [hr.isFree,hr.magic]
  exact hm ((hr.present a).mp hp)

theorem Relinked.extent (hr : Relinked h h') : h'.extent = h.extent := by
  funext a
  simp only [Heap.extent,hr.size]

variable {r : Nat × Nat} {xs : List Nat}

theorem Relinked.chained (hr : Relinked h h') (hc : h.Chained r xs) : h'.Chained r xs := by
  refine ⟨by rw [hr.extent]; exact hc.tiled,by rw [hr.nextPhys,hr.prevPhys]; exact hc.linked,?_⟩
  intro a ha
  rw [hr.present,hr.magic,hr.size]
  exact hc.header a ha

theorem Relinked.shaped (hr : Relinked h h') (hs : h.Shaped tiles free) {free' : List Nat}
    (hlinks : Linked h'.nextFree h'.prevFree 0 free' 0) (hhead : h'.freeList = free'.headD 0)
    (hnodup : free'.Nodup) (hinside : ∀ a ∈ free', h.Tile tiles a) : h'.Shaped tiles free' := by
  refine ⟨?_,?_,fun r h1 => ?_,hlinks,hhead,hnodup,?_⟩
  · rw [hr.runs]
    exact hs.pages
  · rw [hr.runs]
    exact hs.apart
  · exact hr.chained (hs.chained r (hr.runs ▸ h1))
  · rw [hr.runs]
    exact hinside

section
variable (hs : h.Shaped tiles free) (ht : h.Tile tiles a)
include hs ht

theorem Shaped.tile_header : h.Present a ∧ (h.block a).magic = heapMagic ∧ 16 ∣ (h.block a).size := by
  obtain ⟨r,hr,ha⟩ := ht
  exact (hs.chained r hr).header a ha

theorem Shaped.tile_pos : 0 < a := by
  obtain ⟨r,hr,ha⟩ := ht
  have hb := ((hs.chained r hr).tiled.bounds ha).1
  have hp := (hs.pages r hr).1
  omega

theorem Shaped.tile_aligned : 16 ∣ a := by
  obtain ⟨r,hr,ha⟩ := ht
  have hc := hs.chained r hr
  have hbase : 16 ∣ r.1 := Nat.dvd_trans (by decide) (hs.pages r hr).2.1
  exact hc.tiled.dvd hbase (fun x hx => Nat.dvd_add (by decide) (hc.header x hx).2.2) ha

end

theorem Shaped.free_nonzero (hs : h.Shaped tiles free) : 0 ∉ free := fun h0 =>
  Nat.lt_irrefl 0 (hs.tile_pos (hs.inside 0 h0))

theorem Chained.nodup (hc : h.Chained r xs) : xs.Nodup :=
  hc.tiled.nodup fun _ _ => Nat.add_pos_left (by decide) _

section
variable (hs : h.Shaped tiles free) {r' : Nat × Nat} (hr : r ∈ h.runs) (hr' : r' ∈ h.runs)
include hs hr hr'

theorem Shaped.outside (hne : r' ≠ r) (ha : a ∈ tiles r'.1) : a + h.extent a ≤ r.1 ∨ r.1 + r.2 ≤ a := by
  have hb := (hs.chained r' hr').tiled.bounds ha
  have hd := hs.apart r' hr' r hr hne
  omega

theorem Shaped.same_run (ha : a ∈ tiles r.1) (ha' : a ∈ tiles r'.1) : r' = r := by
  by_contra hne
  have ho := hs.outside hr hr' hne ha'
  have hb := (hs.chained r hr).tiled.bounds ha
  simp only [extent,headerSize] at ho hb
  omega

theorem Shaped.same_base (hb : r'.1 = r.1) : r' = r := by
  by_contra hne
  have hd := hs.apart r' hr' r hr hne
  have h1 := (hs.pages r hr).2.2.1
  have h2 := (hs.pages r' hr').2.2.1
  omega

end

section
variable (hs : h.Shaped tiles free)
include hs

theorem Shaped.tile_disjoint (hx : h.Tile tiles x) (hy : h.Tile tiles y) (hne : x ≠ y) :
    x + h.extent x ≤ y ∨ y + h.extent y ≤ x := by
  obtain ⟨r,hr,hxr⟩ := hx
  obtain ⟨r',hr',hyr⟩ := hy
  by_cases heq : r' = r
  · subst heq
    exact (hs.chained r' hr').tiled.disjoint hxr hyr hne
  have ho := hs.outside hr hr' heq hyr
  have hb := (hs.chained r hr).tiled.bounds hxr
  omega

theorem addToFreeList_spec (ht : h.Tile tiles a) (ha : a ∉ free) :
    ∃ h', h.addToFreeList a = some h' ∧ Relinked h h' ∧ h'.Shaped tiles (a :: free) := by
  have hlinks := hs.links.push hs.nodup hs.free_nonzero ha
  have hnodup := nodup_cons.mpr ⟨ha,hs.nodup⟩
  have hinside : ∀ b ∈ a :: free, h.Tile tiles b := by
    exact forall_mem_cons.mpr ⟨ht,hs.inside⟩
  obtain ⟨h1,he1,hr1,hl1,hn1,hp1⟩ := write_links (hs.tile_header ht).1
    (fun b => { b with prevFree := 0, nextFree := h.freeList }) fun _ => rfl
  rw [← hs.head,pushNext,pushPrev] at hlinks
  unfold addToFreeList
  rw [he1,bind_eq_bind,bind_some,hl1]
  by_cases h0 : h.freeList = 0
  · refine ⟨{ h1 with freeList := a },by simp [h0],hr1.setHead a,
      (hr1.setHead a).shaped hs ?_ rfl hnodup hinside⟩
    rw [if_pos h0] at hlinks
    change Linked h1.nextFree h1.prevFree 0 (a :: free) 0
    rw [hn1,hp1]
    exact hlinks
  have hhead : h.freeList ∈ free := by
    rw [hs.head] at h0 ⊢
    exact headD_mem (fun hnil => h0 (by simp [hnil])) 0
  have hpres := (hs.tile_header (hs.inside _ hhead)).1
  obtain ⟨h2,he2,hr2,-,hn2,hp2⟩ := write_links ((hr1.present _).mpr hpres)
    (fun b => { b with prevFree := a }) fun _ => rfl
  have hr := (hr1.trans hr2).setHead a
  refine ⟨{ h2 with freeList := a },by simp [h0,he2],hr,hr.shaped hs ?_ rfl hnodup hinside⟩
  rw [if_neg h0] at hlinks
  change Linked h2.nextFree h2.prevFree 0 (a :: free) 0
  have hsame : h2.nextFree = h1.nextFree := by
    rw [hn2]
    exact update_eq_self _ _
  rw [hsame,hp2,hn1,hp1]
  exact hlinks

theorem unlink_before {l r : List Nat} (hfree : free = l ++ a :: r) :
    ∃ h', (if (h.block a).prevFree = 0 then some { h with freeList := (h.block a).nextFree }
        else h.write (h.block a).prevFree fun p => { p with nextFree := (h.block a).nextFree }) =
          some h' ∧
      Relinked h h' ∧ h'.freeList = (l ++ r).headD 0 ∧
      h'.nextFree = unlinkNext h.nextFree h.prevFree a ∧ h'.prevFree = h.prevFree := by
  have hlinks := hs.links
  have hhead := hs.head
  have h0 := hs.free_nonzero
  rw [hfree] at hlinks hhead h0
  obtain ⟨hprev,hnext,-,-⟩ := hlinks.at
  have h0l : 0 ∉ l := fun hm => h0 (by simp [hm])
  rw [show (h.block a).prevFree = h.prevFree a from rfl,
    show (h.block a).nextFree = h.nextFree a from rfl,hprev,hnext,unlinkNext,hprev,hnext]
  by_cases hl : l = []
  · subst hl
    exact ⟨{ h with freeList := r.headD 0 },by simp,(Relinked.refl h).setHead _,rfl,by simp; rfl,rfl⟩
  have hlast := getLastD_mem hl 0
  have hne : l.getLastD 0 ≠ 0 := fun he => hl ((getLastD_zero_iff h0l).mp he)
  have hmem : l.getLastD 0 ∈ free := hfree ▸ mem_append_left _ hlast
  have hpres := (hs.tile_header (hs.inside _ hmem)).1
  obtain ⟨h1,he1,hr1,hl1,hn1,hp1⟩ := write_links hpres
    (fun p => { p with nextFree := r.headD 0 }) fun _ => rfl
  rw [if_neg hne,if_neg hne]
  refine ⟨h1,he1,hr1,?_,hn1,?_⟩
  · rw [hl1,hhead,headD_append,headD_append]
    obtain ⟨z,zs,rfl⟩ := exists_cons_of_ne_nil hl
    rfl
  · rw [hp1]
    exact update_eq_self _ _

end

theorem unlink_behind {m : Nat} (hm : m ≠ 0 → h.Present m) (v : Nat) :
    ∃ h', (if m = 0 then some h else h.write m fun n => { n with prevFree := v }) = some h' ∧
      Relinked h h' ∧ h'.freeList = h.freeList ∧ h'.nextFree = h.nextFree ∧
      h'.prevFree = if m = 0 then h.prevFree else update h.prevFree m v := by
  by_cases h0 : m = 0
  · exact ⟨h,by simp [h0],.refl h,rfl,rfl,by simp [h0]⟩
  obtain ⟨h1,he1,hr1,hl1,hn1,hp1⟩ := write_links (hm h0) (fun n => { n with prevFree := v })
    fun _ => rfl
  refine ⟨h1,by simp [h0,he1],hr1,hl1,?_,by rw [hp1,if_neg h0]⟩
  rw [hn1]
  exact update_eq_self _ _

theorem removeFromFreeList_spec (hs : h.Shaped tiles free) (ha : a ∈ free) :
    ∃ h', h.removeFromFreeList a = some h' ∧ Relinked h h' ∧ h'.Shaped tiles (free.erase a) := by
  obtain ⟨l,r,hfree⟩ := append_of_mem ha
  have hnodup := hs.nodup
  have hlinks := hs.links
  have h0 := hs.free_nonzero
  rw [hfree] at hnodup hlinks h0
  have hal : a ∉ l := fun hm => (nodup_append'.mp hnodup).2.2 hm (by simp)
  have herase : free.erase a = l ++ r := by
    rw [hfree,erase_append_right _ hal,erase_cons_head]
  have hnext := hlinks.at.2.1
  have hjoin := hlinks.unlink hnodup h0
  have hp := (hs.tile_header (hs.inside a ha)).1
  obtain ⟨h1,he1,hr1,hl1,hn1,hp1⟩ := unlink_before hs hfree
  have hbehind : (h.block a).nextFree ≠ 0 → h1.Present (h.block a).nextFree := by
    intro hne
    rw [show (h.block a).nextFree = h.nextFree a from rfl,hnext] at hne ⊢
    have hr : r ≠ [] := fun hnil => hne (by simp [hnil])
    have hm : r.headD 0 ∈ free := by
      rw [hfree]
      exact mem_append_right _ (mem_cons_of_mem _ (headD_mem hr 0))
    exact (hr1.present _).mpr (hs.tile_header (hs.inside _ hm)).1
  obtain ⟨h2,he2,hr2,hl2,hn2,hp2⟩ := unlink_behind hbehind (h.block a).prevFree
  have hr := hr1.trans hr2
  refine ⟨h2,?_,hr,?_⟩
  · unfold removeFromFreeList
    simp only [hp.mem_eq,bind_eq_bind,bind_some]
    rw [he1]
    exact he2
  rw [herase]
  refine hr.shaped hs ?_ (hl2.trans hl1) (herase ▸ hs.nodup.erase a) fun b hb => ?_
  · rw [hn2,hn1,hp2,hp1]
    exact hjoin
  · exact hs.inside b (mem_of_mem_erase (herase ▸ hb))

section
variable {b : Header}

theorem nextPhys_put : (h.put a b).nextPhys = update h.nextPhys a b.nextPhys := by
  funext x
  simp only [nextPhys,block_put,update_apply]
  split <;> rfl

theorem prevPhys_put : (h.put a b).prevPhys = update h.prevPhys a b.prevPhys := by
  funext x
  simp only [prevPhys,block_put,update_apply]
  split <;> rfl

theorem nextFree_put : (h.put a b).nextFree = update h.nextFree a b.nextFree := by
  funext x
  simp only [nextFree,block_put,update_apply]
  split <;> rfl

theorem prevFree_put : (h.put a b).prevFree = update h.prevFree a b.prevFree := by
  funext x
  simp only [prevFree,block_put,update_apply]
  split <;> rfl

theorem extent_put : (h.put a b).extent = update h.extent a (headerSize + b.size) := by
  funext x
  simp only [extent,block_put,update_apply]
  split <;> rfl

theorem put_mem (hx : x ≠ a) : (h.put a b).mem x = h.mem x := update_of_ne hx _ _

end

theorem Chained.congr (hc : h.Chained r xs) (hm : ∀ a ∈ xs, h'.mem a = h.mem a) : h'.Chained r xs := by
  have hb : ∀ a ∈ xs, h'.block a = h.block a := fun a ha => by simp only [block,hm a ha]
  refine ⟨hc.tiled.congr ?_,hc.linked.congr ?_ ?_,fun a ha => ?_⟩
  · exact fun a ha => by simp only [extent,hb a ha]
  · exact fun a ha => by simp only [nextPhys,hb a ha]
  · exact fun a ha => by simp only [prevPhys,hb a ha]
  rw [hb a ha,Present,hm a ha]
  exact hc.header a ha

theorem Shaped.rechain (hs : h.Shaped tiles free) (hr : r ∈ h.runs) (hruns : h'.runs = h.runs)
    (hhead : h'.freeList = h.freeList)
    (hout : ∀ a, a + headerSize ≤ r.1 ∨ r.1 + r.2 ≤ a → h'.mem a = h.mem a)
    (hlinks : ∀ a ∈ tiles r.1, h'.nextFree a = h.nextFree a ∧ h'.prevFree a = h.prevFree a)
    (hxs : h'.Chained r xs) (hkeep : ∀ a ∈ free, a ∈ tiles r.1 → a ∈ xs) :
    h'.Shaped (update tiles r.1 xs) free := by
  have hother : ∀ r' ∈ h.runs, r' ≠ r → ∀ a ∈ tiles r'.1, h'.mem a = h.mem a := by
    intro r' hr' hne a ha
    have ho := hs.outside hr hr' hne ha
    exact hout a (by simp only [extent] at ho; omega)
  have hfree : ∀ a ∈ free, h'.nextFree a = h.nextFree a ∧ h'.prevFree a = h.prevFree a := by
    intro a ha
    obtain ⟨r',hr',hm⟩ := hs.inside a ha
    by_cases heq : r' = r
    · exact hlinks a (heq ▸ hm)
    · simp only [Heap.nextFree,Heap.prevFree,block,hother r' hr' heq a hm,and_self]
  refine ⟨by rw [hruns]; exact hs.pages,by rw [hruns]; exact hs.apart,?_,
    hs.links.congr (fun a ha => (hfree a ha).1) fun a ha => (hfree a ha).2,hhead.trans hs.head,
    hs.nodup,?_⟩
  · rw [hruns]
    intro r' hr'
    by_cases heq : r' = r
    · subst heq
      simpa using hxs
    · rw [update_of_ne fun hb => heq (hs.same_base hr hr' hb)]
      exact (hs.chained r' hr').congr (hother r' hr' heq)
  rw [hruns]
  intro a ha
  obtain ⟨r',hr',hm⟩ := hs.inside a ha
  by_cases heq : r' = r
  · subst heq
    exact ⟨r',hr',by simpa using hkeep a ha hm⟩
  refine ⟨r',hr',?_⟩
  rw [update_of_ne fun hb => heq (hs.same_base hr hr' hb)]
  exact hm

theorem tile_update (hs : h.Shaped tiles free) (hr : r ∈ h.runs) :
    h.Tile (update tiles r.1 xs) a ↔ a ∈ xs ∨ (h.Tile tiles a ∧ a ∉ tiles r.1) := by
  constructor
  · rintro ⟨r',hr',hm⟩
    by_cases heq : r' = r
    · subst heq
      exact .inl (by simpa using hm)
    · rw [update_of_ne fun hb => heq (hs.same_base hr hr' hb)] at hm
      exact .inr ⟨⟨r',hr',hm⟩,fun hm' => heq (hs.same_run hr hr' hm' hm)⟩
  rintro (hm | ⟨⟨r',hr',hm⟩,hnot⟩)
  · exact ⟨r,hr,by simpa using hm⟩
  have heq : r' ≠ r := fun heq => hnot (heq ▸ hm)
  refine ⟨r',hr',?_⟩
  rw [update_of_ne fun hb => heq (hs.same_base hr hr' hb)]
  exact hm

/-- The back link of block `m` now is `v`, and nothing else has changed. -/
structure Backed (h h' : Heap) (m v : Nat) : Prop where
  runs : h'.runs = h.runs
  freeList : h'.freeList = h.freeList
  mem : ∀ a, (m ≠ 0 → a ≠ m) → h'.mem a = h.mem a
  present : ∀ a, h'.Present a ↔ h.Present a
  block : ∀ a, h'.block a = { h.block a with prevPhys := (h'.block a).prevPhys }
  prevPhys : h'.prevPhys = if m = 0 then h.prevPhys else update h.prevPhys m v

theorem write_back {m : Nat} (hm : m ≠ 0 → h.Present m) (v : Nat) :
    ∃ h', (if m = 0 then some h else h.write m fun n => { n with prevPhys := v }) = some h' ∧
      Backed h h' m v := by
  by_cases h0 : m = 0
  · exact ⟨h,by simp [h0],rfl,rfl,fun _ _ => rfl,fun _ => .rfl,fun _ => rfl,by simp [h0]⟩
  refine ⟨h.put m { h.block m with prevPhys := v },by rw [if_neg h0]; exact (hm h0).write_eq _,
    rfl,rfl,fun a ha => put_mem (ha h0),present_put (hm h0) _,fun a => ?_,
    by rw [prevPhys_put,if_neg h0]⟩
  rw [block_put]
  split
  · rw [‹a = m›]
  · rfl

section
variable {m v : Nat}

section
variable (hb : Backed h h' m v)
include hb

theorem Backed.nextPhys : h'.nextPhys = h.nextPhys := by
  funext a
  simp only [Heap.nextPhys]
  rw [hb.block]

theorem Backed.nextFree : h'.nextFree = h.nextFree := by
  funext a
  simp only [Heap.nextFree]
  rw [hb.block]

theorem Backed.prevFree : h'.prevFree = h.prevFree := by
  funext a
  simp only [Heap.prevFree]
  rw [hb.block]

theorem Backed.extent : h'.extent = h.extent := by
  funext a
  simp only [Heap.extent]
  rw [hb.block]

theorem Backed.marked (hm : h.Marked a) : h'.Marked a := by
  intro hp
  rw [hb.block]
  exact hm ((hb.present a).mp hp)

end

end

section
variable (hs : h.Shaped tiles free)
include hs

section
variable (hr : r ∈ h.runs) {l rest : List Nat}
include hr

theorem absorb_spec (ht : tiles r.1 = l ++ x :: y :: rest) (hy : y ∉ free) :
    ∃ h', h.absorb x y = some h' ∧ h'.Shaped (update tiles r.1 (l ++ x :: rest)) free ∧ h'.runs = h.runs ∧
      (∀ a, h'.Present a ↔ h.Present a) ∧
      (∀ a, (h'.block a).isFree = (h.block a).isFree) ∧
      (∀ a, (h'.block a).magic = (h.block a).magic) ∧
      ∀ a, a ≠ x → (h'.block a).size = (h.block a).size := by
  have hc := hs.chained r hr
  rw [ht] at hc
  have hmem : ∀ z ∈ l ++ x :: y :: rest, h.Present z := fun z hz => (hc.header z hz).1
  have hpx := hmem x (by simp)
  have hpy := hmem y (by simp)
  -- the chain without `y`
  have hlinked : Linked h.nextPhys h.prevPhys 0 ((l ++ [x]) ++ y :: rest) 0 := by
    simpa using hc.linked
  have hnodup : ((l ++ [x]) ++ y :: rest).Nodup := by simpa using hc.nodup
  have h0 : 0 ∉ (l ++ [x]) ++ y :: rest := by
    intro hm
    refine Nat.lt_irrefl 0 (hs.tile_pos ⟨r,hr,?_⟩)
    rw [ht]
    simpa using hm
  obtain ⟨hprev,hnext,-,-⟩ := hlinked.at
  have hprev : h.prevPhys y = x := by simpa using hprev
  have hx0 : x ≠ 0 := fun he => h0 (by simp [he])
  have hjoin := hlinked.unlink hnodup h0
  rw [unlinkNext,unlinkPrev,hprev,if_neg hx0] at hjoin
  -- the two writes
  have hm : h.nextPhys y ≠ 0 → h.Present (h.nextPhys y) ∧ h.nextPhys y ∈ rest := by
    intro hne
    rw [hnext] at hne ⊢
    have hrest : rest ≠ [] := fun hnil => hne (by simp [hnil])
    have hin := headD_mem hrest 0
    exact ⟨hmem _ (by simp only [mem_append,mem_cons,hin,or_true]),hin⟩
  let b : Header := { h.block x with
    size := (h.block x).size + headerSize + (h.block y).size, nextPhys := (h.block y).nextPhys }
  obtain ⟨h2,he2,hb⟩ := @write_back (h.put x b) (h.nextPhys y)
    (fun hne => (present_put hpx b _).mpr (hm hne).1) x
  have hblock : ∀ a, (h2.block a).isFree = (h.block a).isFree ∧ (h2.block a).magic = (h.block a).magic ∧
      (a ≠ x → (h2.block a).size = (h.block a).size) := by
    intro a
    rw [hb.block,block_put]
    split
    · rename_i hax
      subst hax
      exact ⟨rfl,rfl,fun hne => absurd rfl hne⟩
    · exact ⟨rfl,rfl,fun _ => rfl⟩
  have hpresent : ∀ a, h2.Present a ↔ h.Present a :=
    fun a => (hb.present a).trans (present_put hpx b a)
  refine ⟨h2,?_,?_,hb.runs,hpresent,fun a => (hblock a).1,fun a => (hblock a).2.1,
    fun a => (hblock a).2.2⟩
  · unfold absorb
    simp only [hpy.mem_eq,hpx.write_eq,bind_eq_bind,bind_some]
    exact he2
  have hin : ∀ z ∈ l ++ x :: y :: rest, r.1 ≤ z ∧ z + h.extent z ≤ r.1 + r.2 :=
    fun z hz => hc.tiled.bounds hz
  refine hs.rechain hr hb.runs hb.freeList ?_ ?_ ⟨?_,?_,?_⟩ ?_
  · intro a ha
    have hax : a ≠ x := by
      rintro rfl
      have hb' := hin a (by simp)
      simp only [extent,headerSize] at hb' ha
      omega
    rw [hb.mem a fun hne => ?_,put_mem hax]
    rintro rfl
    have hb' := hin (h.nextPhys y) (by simp [(hm hne).2])
    simp only [extent,headerSize] at hb' ha
    omega
  · intro a _
    rw [hb.nextFree,hb.prevFree,nextFree_put,prevFree_put]
    exact ⟨congrFun (update_eq_self x h.nextFree) a, congrFun (update_eq_self x h.prevFree) a⟩
  · rw [hb.extent,extent_put]
    refine hc.tiled.merge ?_ ?_
    · intro z hz
      refine update_of_ne ?_ _ _
      rintro rfl
      have hnd := hc.nodup
      simp only [nodup_append',nodup_cons,mem_cons,not_or] at hnd
      rcases mem_append.mp hz with hz | hz
      · exact hnd.2.2 hz (by simp)
      · exact hnd.2.1.1.2 hz
    · simp only [update_self,extent,b]
      omega
  · rw [hb.nextPhys,hb.prevPhys,nextPhys_put,prevPhys_put]
    have hself : update h.prevPhys x b.prevPhys = h.prevPhys :=
      update_eq_self x h.prevPhys
    rw [hself]
    simpa [b,nextPhys] using hjoin
  · intro a ha
    have ha' : a ∈ l ++ x :: y :: rest := by
      simp only [mem_append,mem_cons] at ha ⊢
      tauto
    refine ⟨(hpresent a).mpr (hmem a ha'),(hblock a).2.1.trans (hc.header a ha').2.1,?_⟩
    by_cases hax : a = x
    · subst hax
      have h1 := (hc.header a ha').2.2
      have h2 := (hc.header y (by simp)).2.2
      rw [hb.block,block_put,if_pos rfl]
      simp only [b,headerSize]
      omega
    · rw [(hblock a).2.2 hax]
      exact (hc.header a ha').2.2
  intro a ha hm'
  rw [ht] at hm'
  simp only [mem_append,mem_cons] at hm' ⊢
  rcases hm' with hm' | hm' | rfl | hm'
  · exact .inl hm'
  · exact .inr (.inl hm')
  · exact absurd ha hy
  · exact .inr (.inr hm')

theorem splitOff_spec {size : Nat} (ht : tiles r.1 = l ++ x :: rest)
    (hfit : size + headerSize + 16 ≤ (h.block x).size) (hsize : 16 ∣ size) :
    ∃ h', h.splitOff x size = some h' ∧
      h'.Shaped (update tiles r.1 (l ++ x :: (x + headerSize + size) :: rest)) free ∧
      h'.runs = h.runs ∧ (∀ a, h.Tile tiles a → a + headerSize ≤ x + headerSize + size ∨
        x + headerSize + size + headerSize ≤ a) ∧
      (∀ a, h.Tile tiles a → (h'.block a).isFree = (h.block a).isFree) ∧
      (h'.block (x + headerSize + size)).isFree = true ∧ (h'.block x).size = size ∧
      (∀ a, h.Tile tiles a → a ≠ x → (h'.block a).size = (h.block a).size) ∧
      ∀ a, h.Marked a → a ≠ x → h'.Marked a := by
  have hc := hs.chained r hr
  rw [ht] at hc
  have hmem : ∀ z ∈ l ++ x :: rest, h.Present z := fun z hz => (hc.header z hz).1
  have hxt : h.Tile tiles x := ⟨r,hr,by simp [ht]⟩
  have hpx := hmem x (by simp)
  -- no block is near the new header
  have hfar : ∀ a, h.Tile tiles a → a + headerSize ≤ x + headerSize + size ∨
      x + headerSize + size + headerSize ≤ a := by
    intro a ha
    by_cases hax : a = x
    · omega
    have hd := hs.tile_disjoint hxt ha (Ne.symm hax)
    simp only [extent] at hd
    omega
  generalize hnew : x + headerSize + size = new at hfar ⊢
  have htile : ∀ z ∈ l ++ x :: rest, h.Tile tiles z := fun z hz => ⟨r,hr,by rw [ht]; exact hz⟩
  have hnot : new ∉ l ++ x :: rest := by
    intro hm
    have hf := hfar new (htile new hm)
    simp only [headerSize] at hf
    omega
  have hold : ∀ z ∈ l ++ x :: new :: rest, z ≠ new → z ∈ l ++ x :: rest := by
    intro z hz hne
    simp only [mem_append,mem_cons] at hz ⊢
    tauto
  have h0 : 0 ∉ l ++ x :: rest := fun hm => Nat.lt_irrefl 0 (hs.tile_pos (htile 0 hm))
  have hnext := hc.linked.at.2.1
  have hins := hc.linked.insert hc.nodup h0 hnot
  -- the new header leaves the blocks as they are
  let b : Header := ⟨(h.block x).size - size - headerSize,true,heapMagic,x,(h.block x).nextPhys,0,0⟩
  have hkeep : ∀ a, h.Tile tiles a → (h.create new b).mem a = h.mem a :=
    fun a ha => create_far b (hfar a ha)
  have hblock : ∀ a, h.Tile tiles a → (h.create new b).block a = h.block a := by
    intro a ha
    simp only [block,hkeep a ha]
  have hpres : ∀ a, h.Tile tiles a → (h.create new b).Present a := by
    intro a ha
    rw [Present,hkeep a ha]
    exact (hs.tile_header ha).1
  have hm : h.nextPhys x ≠ 0 → h.nextPhys x ∈ rest := by
    intro hne
    rw [hnext] at hne ⊢
    exact headD_mem (fun hnil => hne (by simp [hnil])) 0
  obtain ⟨h2,he2,hb⟩ := @write_back (h.create new b) (h.nextPhys x)
    (fun hne => hpres _ (htile _ (by simp [hm hne]))) new
  have hpx2 : h2.Present x := (hb.present x).mpr (hpres x hxt)
  let c : Header := { h2.block x with nextPhys := new, size := size }
  have hxnew : new ≠ x := fun he => hnot (by simp [he])
  have hcx : (h2.put x c).block x =
      { h.block x with prevPhys := (h2.block x).prevPhys, nextPhys := new, size := size } := by
    rw [block_put,if_pos rfl]
    simp only [c]
    conv_lhs => rw [hb.block,hblock x hxt]
  have hba : ∀ a, h.Tile tiles a → a ≠ x →
      (h2.put x c).block a = { h.block a with prevPhys := (h2.block a).prevPhys } := by
    intro a ha hax
    rw [block_put,if_neg hax]
    conv_lhs => rw [hb.block,hblock a ha]
  have hbnew : (h2.put x c).block new = { b with prevPhys := (h2.block new).prevPhys } := by
    rw [block_put,if_neg hxnew]
    conv_lhs => rw [hb.block]
    simp [block,create_self]
  have hfree : ∀ a, h.Tile tiles a → ((h2.put x c).block a).isFree = (h.block a).isFree := by
    intro a ha
    by_cases hax : a = x
    · subst hax
      rw [hcx]
    · rw [hba a ha hax]
  refine ⟨h2.put x c,?_,?_,hb.runs,hfar,hfree,?_,?_,?_,?_⟩
  · unfold splitOff
    simp only [hpx.mem_eq,bind_eq_bind,bind_some,hnew]
    rw [show (if (h.block x).nextPhys = 0 then some (h.create new b) else
      (h.create new b).write (h.block x).nextPhys fun n => { n with prevPhys := new }) = some h2 from he2]
    exact hpx2.write_eq _
  · refine hs.rechain hr hb.runs hb.freeList ?_ ?_ ⟨?_,?_,?_⟩ ?_
    · intro a ha
      have hxb := hc.tiled.bounds (x := x) (by simp)
      have hin : ∀ z ∈ l ++ x :: rest, a ≠ z := by
        rintro z hz rfl
        have hzb := hc.tiled.bounds hz
        simp only [extent,headerSize] at hzb ha
        omega
      rw [put_mem (hin x (by simp)),hb.mem a fun hne => hin _ (by simp [hm hne])]
      refine create_far b ?_
      simp only [extent,headerSize] at hxb ha hfit hnew ⊢
      omega
    · intro a ha
      have hta : h.Tile tiles a := ⟨r,hr,ha⟩
      simp only [nextFree,prevFree]
      by_cases hax : a = x
      · subst hax
        rw [hcx]
        exact ⟨rfl,rfl⟩
      · rw [hba a hta hax]
        exact ⟨rfl,rfl⟩
    · refine hc.tiled.split ?_ ?_ ?_
      · intro z hz
        have hzt : h.Tile tiles z := htile z (by
          simp only [mem_append,mem_cons] at hz ⊢
          tauto)
        have hzx : z ≠ x := by
          rintro rfl
          have hnd := nodup_append'.mp hc.nodup
          rcases mem_append.mp hz with hz | hz
          · exact hnd.2.2 hz (by simp)
          · exact (nodup_cons.mp hnd.2.1).1 hz
        simp only [extent]
        rw [hba z hzt hzx]
      · simp only [extent,hcx]
        omega
      simp only [extent]
      rw [hcx,hbnew]
      simp only [b]
      omega
    · have hcreate : ∀ z ∈ l ++ x :: new :: rest,
          (h.create new b).prevPhys z = update h.prevPhys new x z := by
        intro z hz
        by_cases hzn : z = new
        · subst hzn
          simp [prevPhys,block,create_self,b]
        rw [update_of_ne hzn,prevPhys,hblock z (htile z (hold z hz hzn))]
        rfl
      refine hins.congr (fun z hz => ?_) fun z hz => ?_
      · rw [nextPhys_put]
        by_cases hzx : z = x
        · simp [hzx,insertNext,c]
        rw [update_of_ne hzx,insertNext,update_of_ne hzx,hb.nextPhys]
        by_cases hzn : z = new
        · subst hzn
          simp [nextPhys,block,create_self,b]
        rw [update_of_ne hzn,nextPhys,hblock z (htile z (hold z hz hzn))]
        rfl
      rw [prevPhys_put,show update h2.prevPhys x c.prevPhys = h2.prevPhys from
        update_eq_self x h2.prevPhys,hb.prevPhys,insertPrev]
      split
      · exact hcreate z hz
      simp only [update_apply]
      split
      · rfl
      · rw [hcreate z hz,update_apply]
    · intro a ha
      rw [present_put hpx2,hb.present]
      by_cases han : a = new
      · subst han
        rw [hbnew]
        refine ⟨by simp [Present,create_self],rfl,?_⟩
        have hx16 := (hc.header x (by simp)).2.2
        simp only [b,headerSize]
        omega
      have hal := hold a ha han
      refine ⟨hpres a (htile a hal),?_⟩
      by_cases hax : a = x
      · subst hax
        rw [hcx]
        exact ⟨(hc.header a hal).2.1,hsize⟩
      · rw [hba a (htile a hal) hax]
        exact (hc.header a hal).2
    intro a _ ha
    rw [ht] at ha
    simp only [mem_append,mem_cons] at ha ⊢
    tauto
  · rw [hbnew]
  · rw [hcx]
  · intro a ha hax
    rw [hba a ha hax]
  · intro a ha hax
    exact (hb.marked (ha.create ⟨rfl,rfl⟩)).put fun he => absurd he hax

end

theorem addRun_spec {base bytes : Nat} (hpos : 0 < base) (hpage : pageSize ∣ base)
    (hend : base + bytes ≤ 2^64) (hlen : headerSize < bytes) (hb16 : 16 ∣ bytes)
    (hfresh : ∀ r ∈ h.runs, r.1 + r.2 ≤ base ∨ base + bytes ≤ r.1) :
    ∃ h', h.addRun base bytes = some h' ∧ h'.Shaped (update tiles base [base]) (base :: free) ∧
      h'.runs = (base,bytes) :: h.runs ∧ ¬ h.Tile tiles base ∧
      (∀ a, h'.Tile (update tiles base [base]) a ↔ a = base ∨ h.Tile tiles a) ∧
      ((h'.block base).isFree = true ∧ (h'.block base).size = bytes - headerSize) ∧
      (∀ a, h.Tile tiles a → (h'.block a).isFree = (h.block a).isFree ∧
        (h'.block a).size = (h.block a).size) ∧
      ∀ a, h.Marked a → h'.Marked a := by
  let b : Header := ⟨bytes - headerSize,true,heapMagic,0,0,0,0⟩
  let h1 : Heap := { h.create base b with runs := (base,bytes) :: h.runs }
  have hfar : ∀ a, h.Tile tiles a → a + headerSize ≤ base ∨ base + headerSize ≤ a := by
    rintro a ⟨r,hr,ha⟩
    have hb := (hs.chained r hr).tiled.bounds ha
    have hd := hfresh r hr
    simp only [extent] at hb
    omega
  have hmem : ∀ a, h.Tile tiles a → h1.mem a = h.mem a := fun a ha => create_far b (hfar a ha)
  have hblock : ∀ a, h.Tile tiles a → h1.block a = h.block a := by
    intro a ha
    simp only [block,hmem a ha]
  have hself : h1.mem base = some b := create_self base b
  have hselfb : h1.block base = b := by simp [block,hself]
  have hnot : ¬ h.Tile tiles base := by
    intro ht
    have hf := hfar base ht
    simp only [headerSize] at hf
    omega
  have hkey : ∀ r ∈ h.runs, r.1 ≠ base := by
    intro r hr he
    have hd := hfresh r hr
    have hp := (hs.pages r hr).2.2.1
    omega
  have htile : ∀ a, h1.Tile (update tiles base [base]) a ↔ a = base ∨ h.Tile tiles a := by
    intro a
    constructor
    · rintro ⟨r,hr,ha⟩
      rcases mem_cons.mp hr with rfl | hr
      · exact .inl (by simpa using ha)
      rw [update_of_ne (hkey r hr)] at ha
      exact .inr ⟨r,hr,ha⟩
    rintro (rfl | ⟨r,hr,ha⟩)
    · exact ⟨(a,bytes),mem_cons_self,by simp⟩
    refine ⟨r,mem_cons_of_mem _ hr,?_⟩
    rw [update_of_ne (hkey r hr)]
    exact ha
  have hs1 : h1.Shaped (update tiles base [base]) free := by
    refine ⟨?_,?_,?_,hs.links.congr ?_ ?_,hs.head,hs.nodup,?_⟩
    · intro r hr
      rcases mem_cons.mp hr with rfl | hr
      · exact ⟨hpos,hpage,by omega,hend⟩
      · exact hs.pages r hr
    · intro r hr r' hr' hne
      rcases mem_cons.mp hr with rfl | hr <;> rcases mem_cons.mp hr' with rfl | hr'
      · exact absurd rfl hne
      · exact (hfresh r' hr').symm
      · exact hfresh r hr
      · exact hs.apart r hr r' hr' hne
    · intro r hr
      rcases mem_cons.mp hr with rfl | hr
      · have hext : h1.extent base = bytes := by
          simp only [extent,hselfb,b]
          omega
        simp only [update_self]
        refine ⟨⟨rfl,by rw [hext]; rfl⟩,⟨?_,?_,trivial⟩,?_⟩
        · simp [prevPhys,hselfb,b]
        · simp [nextPhys,hselfb,b]
        intro a ha
        obtain rfl := mem_singleton.mp ha
        refine ⟨by simp [Present,hself],by rw [hselfb],?_⟩
        rw [hselfb]
        simp only [b,headerSize]
        omega
      · rw [update_of_ne (hkey r hr)]
        exact (hs.chained r hr).congr fun a ha => hmem a ⟨r,hr,ha⟩
    · intro a ha
      simp only [nextFree,hblock a (hs.inside a ha)]
    · intro a ha
      simp only [prevFree,hblock a (hs.inside a ha)]
    · exact fun a ha => (htile a).mpr (.inr (hs.inside a ha))
  obtain ⟨h2,he2,hr2,hs2⟩ := addToFreeList_spec hs1 ((htile base).mpr (.inl rfl))
    fun hm => hnot (hs.inside base hm)
  refine ⟨h2,he2,hs2,hr2.runs,hnot,?_,?_,?_,?_⟩
  · intro a
    rw [Tile,hr2.runs]
    exact htile a
  · rw [hr2.isFree,hr2.size,hselfb]
    exact ⟨rfl,rfl⟩
  · intro a ha
    rw [hr2.isFree,hr2.size,hblock a ha]
    exact ⟨rfl,rfl⟩
  · intro a ha
    exact hr2.marked (ha.create ⟨rfl,rfl⟩)

theorem Shaped.free_length : free.length < h.walkLimit := by
  have hsub : free ⊆ h.runs.flatMap fun r => tiles r.1 := fun a ha =>
    mem_flatMap.mpr (hs.inside a ha)
  have hle : ∀ rs : List (Nat × Nat), (∀ r ∈ rs, r ∈ h.runs) →
      (rs.flatMap fun r => tiles r.1).length ≤ (rs.map (·.2)).sum := by
    intro rs hrs
    induction rs with
    | nil => simp
    | cons r rs ih =>
      have hr := (hs.chained r (hrs r (by simp))).tiled.length_le
        fun _ _ => Nat.add_pos_left (by decide) _
      have hi := ih fun r' hr' => hrs r' (by simp [hr'])
      simp only [flatMap_cons,length_append,map_cons,sum_cons]
      omega
  have h1 := (subperm_of_subset hs.nodup hsub).length_le
  have h2 := hle h.runs fun _ hr => hr
  unfold walkLimit
  omega

end

theorem firstFit_spec {size p : Nat} (hx : ∀ a ∈ xs, h.Present a) (h0 : 0 ∉ xs)
    (hl : Linked h.nextFree h.prevFree p xs 0) {fuel : Nat} (hfuel : xs.length < fuel) :
    (h.firstFit size fuel (xs.headD 0) = some 0 ∧ ∀ a ∈ xs, (h.block a).size < size) ∨
    ∃ a ∈ xs, h.firstFit size fuel (xs.headD 0) = some a ∧ size ≤ (h.block a).size := by
  induction xs generalizing p fuel with
  | nil =>
    obtain ⟨n,rfl⟩ := Nat.exists_eq_add_of_lt hfuel
    simp [firstFit]
  | cons x xs ih =>
    obtain ⟨n,rfl⟩ : ∃ n, fuel = n+1 := ⟨fuel-1,by simp at hfuel; omega⟩
    obtain ⟨-,hnext,hl⟩ := hl
    have hx0 : x ≠ 0 := fun he => h0 (by simp [he])
    have hp := hx x (by simp)
    simp only [headD_cons,firstFit,hx0,if_false,hp.mem_eq,bind_eq_bind,bind_some]
    by_cases hfit : (h.block x).size ≥ size
    · exact .inr ⟨x,by simp,by simp [hfit],hfit⟩
    rw [if_neg hfit,show (h.block x).nextFree = xs.headD 0 from hnext]
    have hi := ih (fun a ha => hx a (by simp [ha])) (fun hm => h0 (by simp [hm])) hl
      (by simpa using hfuel)
    rcases hi with ⟨he,hall⟩ | ⟨a,ha,he,hsz⟩
    · refine .inl ⟨he,?_⟩
      intro a ha
      rcases mem_cons.mp ha with rfl | ha
      · omega
      · exact hall a ha
    · exact .inr ⟨a,by simp [ha],he,hsz⟩

end Heap
end Rucux.Memory
