import Mathlib.Data.List.AList
import Rucux.Memory.Buddy
import Rucux.Memory.Vma

/-! The page table of one address space, as a map from page numbers to leaves. -/

namespace Rucux.Memory
open AList List

def pageBase (a : Nat) : Nat := a / pageSize * pageSize

def pagePresent : BitVec 64 := 1
def pageWritable : BitVec 64 := 2
def pageUser : BitVec 64 := 4
def pageNoExecute : BitVec 64 := 1 <<< 63

structure Leaf where
  phys : Nat
  flags : BitVec 64
  present : phys ≠ 0
  deriving DecidableEq

def Leaf.frame (l : Leaf) : Nat := pageBase l.phys

abbrev PageTable : Type := AList fun _ : Nat => Leaf

namespace PageTable

def leaf (pt : PageTable) (page : Nat) : Option Leaf := lookup page pt

def getPhys (pt : PageTable) (virt : Nat) : Nat := (pt.leaf (virt/pageSize)).elim 0 (·.phys)

/-- `tables` says whether the intermediate tables are there or can be made. -/
def map (pt : PageTable) (virt phys : Nat) (flags : BitVec 64) (tables : Bool) : PageTable :=
  if h : phys ≠ 0 then
    if tables then insert (virt/pageSize) ⟨phys,flags,h⟩ pt else pt
  else pt

def unmap (pt : PageTable) (virt : Nat) : PageTable := erase (virt/pageSize) pt

def protect (pt : PageTable) (virt : Nat) (flags : BitVec 64) : Bool × PageTable :=
  match pt.leaf (virt/pageSize) with
  | none => (false,pt)
  | some l => (true,insert (virt/pageSize) { l with flags := flags } pt)

def getUserPhys (pt : PageTable) (virt : Nat) (write : Bool) : Nat :=
  match pt.leaf (virt/pageSize) with
  | none => 0
  | some l =>
    if l.flags &&& pageUser = 0 || write && l.flags &&& pageWritable = 0 then 0 else l.phys

def framesWhere (own : Nat → Bool) (pt : PageTable) : List Nat :=
  (pt.entries.filter fun e => own e.1).map fun e => e.2.frame

variable {pt : PageTable} {own own' : Nat → Bool} {k j virt phys : Nat} {l : Leaf}
  {flags : BitVec 64} {ok : Bool}

theorem mem_entries {e : Sigma fun _ : Nat => Leaf} : e ∈ pt.entries ↔ pt.leaf e.1 = some e.2 :=
  mem_lookup_iff.symm

theorem getPhys_eq_zero : pt.getPhys virt = 0 ↔ pt.leaf (virt/pageSize) = none := by
  unfold getPhys
  cases h : pt.leaf (virt/pageSize) with
  | none => simp
  | some l => simpa using l.present

theorem getPhys_of_leaf (h : pt.leaf (virt/pageSize) = some l) : pt.getPhys virt = l.phys := by
  simp [getPhys,h]

theorem leaf_insert : leaf (insert k l pt) j = if j = k then some l else pt.leaf j := by
  by_cases h : j = k
  · rw [if_pos h,h]
    exact lookup_insert pt
  · rw [if_neg h]
    exact lookup_insert_ne h

theorem leaf_of_insert {m : Leaf} (h : leaf (insert k l pt) j = some m) :
    j = k ∧ l = m ∨ j ≠ k ∧ pt.leaf j = some m := by
  rw [leaf_insert] at h
  split at h
  · exact .inl ⟨‹_›,Option.some.inj h⟩
  · exact .inr ⟨‹_›,h⟩

theorem map_spec (pt : PageTable) (virt : Nat) (flags : BitVec 64) (ok : Bool) (h : phys ≠ 0) :
    ok = false ∧ pt.map virt phys flags ok = pt ∨
    ok = true ∧ pt.map virt phys flags ok = insert (virt/pageSize) ⟨phys,flags,h⟩ pt := by
  cases ok with
  | false => exact .inl ⟨rfl,by simp [map]⟩
  | true => exact .inr ⟨rfl,by rw [map,dif_pos h,if_pos rfl]⟩

theorem protect_spec (flags : BitVec 64) (h : pt.leaf (virt/pageSize) = some l) :
    pt.protect virt flags = (true,insert (virt/pageSize) { l with flags := flags } pt) := by
  rw [protect,h]

theorem mem_framesWhere {x : Nat} :
    x ∈ pt.framesWhere own ↔ ∃ k l, pt.leaf k = some l ∧ own k = true ∧ l.frame = x := by
  simp only [framesWhere,mem_map,mem_filter,mem_entries]
  constructor
  · rintro ⟨e,⟨h1,h2⟩,h3⟩
    exact ⟨e.1,e.2,h1,h2,h3⟩
  · rintro ⟨k,l,h1,h2,h3⟩
    exact ⟨⟨k,l⟩,⟨h1,h2⟩,h3⟩

theorem framesWhere_congr (h : ∀ k l, pt.leaf k = some l → own k = own' k) :
    pt.framesWhere own = pt.framesWhere own' := by
  unfold framesWhere
  congr 1
  exact filter_congr fun e he => h e.1 e.2 (mem_entries.mp he)

theorem entries_erase (h : pt.leaf k = some l) : pt.entries ~ ⟨k,l⟩ :: (erase k pt).entries := by
  have hk : k ∈ pt.entries.keys := mem_keys.mpr ⟨l,mem_lookup_iff.mp h⟩
  obtain ⟨l',xs,ys,-,heq,herase⟩ := exists_of_kerase hk
  have hl : pt.leaf k = some l' := mem_entries (e := ⟨k,l'⟩).mp (by rw [heq]; simp)
  obtain rfl : l = l' := Option.some.inj (h.symm.trans hl)
  have he : (erase k pt).entries = xs ++ ys := herase
  rw [he,heq]
  exact perm_middle

theorem unmap_of_none (h : pt.leaf (virt/pageSize) = none) : pt.unmap virt = pt := by
  apply ext
  exact kerase_of_notMem_keys (lookup_eq_none.mp h)

theorem framesWhere_erase (own : Nat → Bool) (h : pt.leaf k = some l) : pt.framesWhere own ~
      (if own k = true then [l.frame] else []) ++ framesWhere own (erase k pt) := by
  refine (((entries_erase h).filter _).map _).trans ?_
  by_cases hk : own k = true
  · simp [framesWhere,hk]
  · simp [framesWhere,hk]

theorem page_unique (hnd : (pt.framesWhere own).Nodup) {m : Leaf} (hk : pt.leaf k = some l)
    (hown : own k = true) (hj : pt.leaf j = some m) (hown' : own j = true)
    (hf : l.frame = m.frame) : j = k := by
  by_contra hjk
  have hnd' : (l.frame :: framesWhere own (erase k pt)).Nodup := by
    have hp := framesWhere_erase own hk
    rw [if_pos hown] at hp
    exact hp.nodup_iff.mp hnd
  refine (nodup_cons.mp hnd').1 (mem_framesWhere.mpr ⟨j,m,?_,hown',hf.symm⟩)
  exact (lookup_erase_ne hjk).trans hj

theorem framesWhere_insert (h : pt.leaf k = none) : framesWhere own (insert k l pt) =
      (if own k = true then [l.frame] else []) ++ pt.framesWhere own := by
  have he := entries_insert_of_notMem (b := l) (lookup_eq_none.mp h)
  unfold framesWhere
  rw [he]
  by_cases hk : own k = true
  · simp [hk]
  · simp [hk]

theorem framesWhere_replace {l' : Leaf} (h : pt.leaf k = some l) (hf : l'.frame = l.frame) :
    framesWhere own (insert k l' pt) ~ pt.framesWhere own := by
  have hl : leaf (insert k l' pt) k = some l' := by simp [leaf_insert]
  have he : erase k (insert k l' pt) = erase k pt := by
    apply ext
    exact kerase_cons_eq rfl
  have hp := framesWhere_erase own hl
  rw [he,hf] at hp
  exact hp.trans (framesWhere_erase own h).symm

end PageTable

/-! `sys_mmap`, `sys_munmap`, `sys_mprotect` and `handle_fault` of the threads that share an address space. A call
is cut where it takes or leaves the lock of the space, and where it gets or returns a frame in between, so a thread
is in one of the phases of `Call`. What the rest of the kernel answers comes with the events. -/

open Lib

/-- `USER_BEGIN`, `USER_END` and the first `next_mmap`, which depend on the architecture. -/
structure UserLayout where
  userBegin : Nat
  userEnd : Nat
  mmapBase : Nat
  bounded : userEnd < 2^64
  aligned : mmapBase % pageSize = 0

namespace UserLayout

def amd64 : UserLayout := ⟨0x8000000000,0x800000000000,0xA000000000,by decide,by decide⟩

def aarch64 : UserLayout := ⟨0x100000000,0x8000000000,0x2000000000,by decide,by decide⟩

def userRange (L : UserLayout) (address size : Nat) : Bool :=
  address ≥ L.userBegin && address < L.userEnd && size ≤ L.userEnd - address

def rangeFits (L : UserLayout) (start length : Nat) : Bool :=
  length ≠ 0 && length ≤ L.userEnd - L.userBegin && L.userRange start length

end UserLayout

def protRead : BitVec 32 := 1
def protWrite : BitVec 32 := 2
def protExec : BitVec 32 := 4

def mapShared : BitVec 32 := 1
def mapPrivate : BitVec 32 := 2
def mapFixed : BitVec 32 := 0x10
def mapAnonymous : BitVec 32 := 0x20

def vmaOwnsFrames : BitVec 32 := 0x80000000
def vmaPopulating : BitVec 32 := 0x40000000

def has (x mask : BitVec 32) : Bool := decide (x &&& mask ≠ 0)

def writeAndExec (prot : BitVec 32) : Bool :=
  decide (prot &&& (protWrite ||| protExec) = protWrite ||| protExec)

def flagsForProt (prot : BitVec 32) : BitVec 64 :=
  let flags := pagePresent
  let flags := if prot ≠ 0 then flags ||| pageUser else flags
  let flags := if has prot protWrite then flags ||| pageWritable else flags
  if has prot protExec then flags else flags ||| pageNoExecute

def pageCount (length : Nat) : Nat := (length + pageSize - 1) / pageSize

/-- Which operations a node has; `refresh` is what `refresh_metadata` returns. -/
structure NodeOps where
  mmap : Bool
  read : Bool
  refresh : Option Int

/-- An entry of the descriptor table with a node; `length` is the node's length. -/
structure Descriptor where
  node : Nat
  flags : BitVec 32
  ops : Option NodeOps
  regular : Bool
  length : Nat

/-- The arguments of `sys_mmap`, with what the descriptor table of the thread has for `fd`. -/
structure MmapArgs where
  addr : UInt64
  length : UInt64
  prot : BitVec 32
  flags : BitVec 32
  fd : Int
  offset : BitVec 64
  file : Option Descriptor

structure Source where
  owns : Bool
  ops : Option NodeOps
  node : Nat
  access : BitVec 32
  offset : BitVec 64
  fileLength : Nat

def mmapCheck (L : UserLayout) (a : MmapArgs) : Bool :=
  let sharing := a.flags &&& (mapShared ||| mapPrivate)
  a.length.toNat ≠ 0 && a.length.toNat ≤ L.userEnd - L.userBegin && a.prot &&& ~~~7 = 0 &&
    !writeAndExec a.prot && (sharing = mapShared || sharing = mapPrivate) &&
    a.flags &&& ~~~(mapShared ||| mapPrivate ||| mapFixed ||| mapAnonymous) = 0

def mmapSource (a : MmapArgs) (aligned : Nat) : Except Int Source :=
  if has a.flags mapAnonymous then .ok ⟨true,none,0,0,0,0⟩
  else if a.offset.toInt < 0 || a.offset.toNat % pageSize ≠ 0 then .error (-22)
  else if aligned > 2^63 - 1 - a.offset.toNat then .error (-75)
  else
    match (if a.fd < 0 then none else a.file) with
    | none => .error (-9)
    | some d =>
      let access := d.flags &&& 3
      if access ≠ 0 && access ≠ 2 ||
          a.flags &&& (mapShared ||| mapPrivate) = mapShared && has a.prot protWrite && access ≠ 2 then
        .error (-13)
      else
        match d.ops with
        | none => .error (-19)
        | some ops =>
          if !ops.mmap && (!ops.read || !d.regular) then .error (-19)
          else if ops.mmap then .ok ⟨false,some ops,d.node,access,a.offset,0⟩
          else if ops.refresh.any (· < 0) then .error (ops.refresh.getD 0)
          else .ok ⟨true,some ops,d.node,access,a.offset,d.length⟩

/-- The locals of a `sys_mmap` from its reservation on. -/
structure Reservation where
  start : Nat
  pages : Nat
  length : Nat
  prot : BitVec 32
  flags : BitVec 32
  fd : Int
  source : Source

namespace Reservation

def stop (p : Reservation) : Nat := p.start + p.pages*pageSize

def page (p : Reservation) (i : Nat) : Nat := p.start + i*pageSize

def vflags (p : Reservation) : BitVec 32 :=
  (if p.source.owns then p.flags ||| vmaOwnsFrames else p.flags) ||| vmaPopulating

def vma (p : Reservation) : Vma :=
  ⟨p.start,p.stop,p.prot,p.vflags,p.fd,p.source.offset,if p.source.owns then 0 else p.source.node⟩

def anonymous (p : Reservation) : Bool := has p.flags mapAnonymous

def fileMap (p : Reservation) : Bool := !p.anonymous && p.source.ops.any (·.mmap)

def fileRead (p : Reservation) : Bool := !p.anonymous && p.source.ops.any (·.read)

/-- A shared mapping of a descriptor that is not open for reading and writing. -/
def readOnly (p : Reservation) : Bool :=
  !p.anonymous && p.flags &&& (mapShared ||| mapPrivate) = mapShared && p.source.access ≠ 2

/-- The loop that reads the bytes of a page, with 0 or the error; every round but the last reads
a byte at least. -/
def readLoop (read : Nat → Nat → Int) (fileOffset count : Nat) : Nat → Nat → Int
  | 0, _ => 0
  | fuel+1, done =>
    if done < count then
      let result := read (fileOffset + done) (count - done)
      if result ≤ 0 || result > (count - done : Nat) then
        if result < 0 && result ≥ -4095 then result else -5
      else readLoop read fileOffset count fuel (done + result.toNat)
    else 0

def fill (p : Reservation) (i : Nat) (read : Nat → Nat → Int) : Int :=
  if p.fileRead then
    let fileOffset := p.source.offset.toNat + i*pageSize
    let remaining := p.length - i*pageSize
    let count := if remaining < pageSize then remaining else pageSize
    let available := if fileOffset < p.source.fileLength then p.source.fileLength - fileOffset else 0
    let count := if count > available then available else count
    readLoop read fileOffset count count 0
  else 0

end Reservation

/-- Where a thread is. `idle` has what its last call returned; 1 and 0 stand for true and false. -/
inductive Call where
  | idle (result : Int)
  | populating (p : Reservation) (i : Nat)
  | installing (p : Reservation) (i phys : Nat)
  | releasing (p : Reservation) (installed i frame : Nat) (error : Int)
  | unwinding (p : Reservation) (installed i : Nat) (error : Int)
  | resetting (p : Reservation) (error : Int)
  | faulting (page : Nat) (write execute : Bool)
  | mapping (page : Nat) (write execute : Bool) (frame : Nat)
  | discarding (frame : Nat) (resolved : Bool)

/-- The answers a step may ask for: a frame or 0, whether a fatal signal is pending, `read`, whether
the tables for a page can be made, what `new` returns. -/
structure Choice where
  frame : Nat
  signal : Bool
  read : Nat → Nat → Int
  tables : Bool
  new : Nat

/-- An address space with its threads. The last three fields are what the kernel does not keep: the
frames taken and not yet returned, those that callbacks supplied, and the addresses last reserved for a
shared mapping of a descriptor not open for writing. -/
structure Mm (n : Nat) where
  vmas : VmaManager
  pages : PageTable
  nextMmap : Nat
  calls : Fin n → Call
  out : List Nat
  supplied : List Nat
  sealed : Nat → Bool

def VmaManager.regionAt (m : VmaManager) (addr : Nat) : Option (Option Vma) := do
  let a ← m.find addr
  if a = 0 then return none
  else
    let v ← m.regions a
    return some v

namespace Mm
variable {n : Nat}

def setCall (s : Mm n) (t : Fin n) (c : Call) : Mm n :=
  { s with calls := Function.update s.calls t c }

def finish (s : Mm n) (t : Fin n) (result : Int) : Mm n := s.setCall t (.idle result)

def take (s : Mm n) (frame : Nat) : Mm n := { s with out := frame :: s.out }

/-- `pmm::free_page`. There is no next state for a frame that is not out, that a callback supplied
or that is still mapped. -/
def freePage (s : Mm n) (frame : Nat) : Option (Mm n) :=
  if frame ∈ s.out ∧ frame ∉ s.supplied ∧ ∀ e ∈ s.pages.entries, e.2.frame ≠ frame then
    some { s with out := s.out.erase frame }
  else none

def occupied (s : Mm n) : Nat → Nat → Option Int
  | 0, _ => some 0
  | k+1, address => do
    let region ← s.vmas.regionAt address
    match region with
    | some r => return if has r.flags vmaPopulating then -16 else -17
    | none => if s.pages.getPhys address ≠ 0 then return -17 else s.occupied k (address + pageSize)

def reserved (s : Mm n) (p : Reservation) (vmas : VmaManager) : Mm n :=
  { s with
    vmas := vmas
    nextMmap := if has p.flags mapFixed then s.nextMmap else p.stop
    sealed := fun x => if p.start ≤ x ∧ x < p.stop then p.readOnly else s.sealed x }

def reserve (L : UserLayout) (s : Mm n) (t : Fin n) (p : Reservation) (new : Nat) : Option (Mm n) :=
  if !has p.flags mapFixed && !L.rangeFits p.start (p.pages*pageSize) then some (s.finish t (-12))
  else if has p.flags mapFixed && (p.start % pageSize ≠ 0 || !L.rangeFits p.start (p.pages*pageSize)) then
    some (s.finish t (-22))
  else do
    let code ← s.occupied p.pages p.start
    if code ≠ 0 then return s.finish t code
    else
      let r ← s.vmas.insert p.vma new
      if r.1 = 0 then return s.finish t (-12)
      else return (s.reserved p r.2).setCall t (.populating p 0)

def sysMmap (L : UserLayout) (s : Mm n) (t : Fin n) (a : MmapArgs) (new : Nat) : Option (Mm n) :=
  if !mmapCheck L a then some (s.finish t (-22))
  else
    let pages := pageCount a.length.toNat
    match mmapSource a (pages*pageSize) with
    | .error e => some (s.finish t e)
    | .ok source =>
      let start := if has a.flags mapFixed then a.addr.toNat else s.nextMmap
      s.reserve L t ⟨start,pages,a.length.toNat,a.prot,a.flags,a.fd,source⟩ new

inductive InstallResult where
  | mapped
  | already
  | gone

def installPage (s : Mm n) (virt phys : Nat) (flags : BitVec 64) (tables : Bool) :
    Option (InstallResult × Mm n) := do
  let region ← s.vmas.regionAt virt
  if region.isNone then return (.gone,s)
  else if s.pages.getPhys virt ≠ 0 then return (.already,s)
  else
    let s := { s with pages := s.pages.map virt phys flags tables }
    if s.pages.getPhys virt = 0 then return (.gone,s) else return (.mapped,s)

def publish (s : Mm n) (t : Fin n) (p : Reservation) : Option (Mm n) := do
  let a ← s.vmas.find p.start
  if a = 0 then return s.finish t p.start
  else
    let r ← s.vmas.regions a
    let vmas := s.vmas.set a { r with flags := r.flags &&& ~~~vmaPopulating }
    return { s with vmas := vmas }.finish t p.start

def populate (s : Mm n) (t : Fin n) (p : Reservation) (i : Nat) (c : Choice) : Option (Mm n) :=
  if !p.anonymous && !p.fileMap && !p.fileRead then some (s.setCall t (.unwinding p i 0 (-19)))
  else if i < p.pages then
    if c.signal then some (s.setCall t (.unwinding p i 0 (-4)))
    else if p.fileMap then
      if c.frame = 0 then some (s.setCall t (.unwinding p i 0 (-5)))
      else
        let s := { s with supplied := pageBase c.frame :: s.supplied }
        some (s.setCall t (.installing p i c.frame))
    else if c.frame = 0 then some (s.setCall t (.unwinding p i 0 (-12)))
    else
      let error := p.fill i c.read
      if error < 0 then some ((s.take c.frame).setCall t (.releasing p i 0 c.frame error))
      else some ((s.take c.frame).setCall t (.installing p i c.frame))
  else s.publish t p

def install (s : Mm n) (t : Fin n) (p : Reservation) (i phys : Nat) (c : Choice) : Option (Mm n) := do
  let (result,s) ← s.installPage (p.page i) phys (flagsForProt p.prot) c.tables
  match result with
  | .mapped => return s.setCall t (.populating p (i+1))
  | .already =>
    if p.fileMap then return s.setCall t (.unwinding p i 0 (-17))
    else return s.setCall t (.releasing p i 0 phys (-17))
  | .gone =>
    if p.fileMap then return s.setCall t (.unwinding p i 0 (-12))
    else return s.setCall t (.releasing p i 0 phys (-12))

def unwind (s : Mm n) (t : Fin n) (p : Reservation) (installed i : Nat) (error : Int) (c : Choice) :
    Option (Mm n) :=
  if i < installed then
    let phys := s.pages.getPhys (p.page i)
    let s := { s with pages := s.pages.unmap (p.page i) }
    if p.source.owns && phys ≠ 0 then
      some (s.setCall t (.releasing p installed (i+1) (pageBase phys) error))
    else some (s.setCall t (.unwinding p installed (i+1) error))
  else do
    let r ← s.vmas.remove p.start (p.pages*pageSize) c.new
    return { s with vmas := r.2 }.setCall t (.resetting p error)

def reset (s : Mm n) (t : Fin n) (p : Reservation) (error : Int) : Mm n :=
  if !has p.flags mapFixed && s.nextMmap = p.stop then
    { s with nextMmap := p.start }.finish t error
  else s.finish t error

def populationInRange (m : VmaManager) : Nat → Nat → Option Bool
  | 0, _ => some false
  | k+1, address => do
    let region ← m.regionAt address
    if region.any (fun r => has r.flags vmaPopulating) then return true
    else populationInRange m k (address + pageSize)

def unmapPages : Nat → Nat → Mm n → Option (Int × Mm n)
  | 0, _, s => some (0,s)
  | k+1, page, s => do
    let region ← s.vmas.regionAt page
    match region with
    | none => unmapPages k (page + pageSize) s
    | some r =>
      if has r.flags vmaPopulating then return (-16,s)
      else
        let phys := s.pages.getPhys page
        let s := { s with pages := s.pages.unmap page }
        let s ← (if has r.flags vmaOwnsFrames && phys ≠ 0 then s.freePage (pageBase phys) else some s)
        unmapPages k (page + pageSize) s

def sysMunmap (L : UserLayout) (s : Mm n) (virt length new new' right : Nat) : Option (Int × Mm n) :=
  let aligned := pageCount length*pageSize
  if length = 0 || length > L.userEnd - L.userBegin || virt % pageSize ≠ 0 then some (-22,s)
  else if !L.userRange virt aligned then some (-22,s)
  else do
    let busy ← populationInRange s.vmas (pageCount length) virt
    if busy then return (-16,s)
    else
      let (ok,vmas) ← s.vmas.isolate virt (virt + aligned) new new'
      let s := { s with vmas := vmas }
      if !ok then return (-12,s)
      else
        let (code,s) ← unmapPages (pageCount length) virt s
        if code ≠ 0 then return (code,s)
        else
          let busy ← populationInRange s.vmas (pageCount length) virt
          if busy then return (-16,s)
          else
            let (ok,vmas) ← s.vmas.remove virt aligned right
            let s := { s with vmas := vmas }
            if !ok then return (-12,s) else return (0,s)

def protectPages : Nat → Nat → Mm n → Option (Int × Mm n)
  | 0, _, s => some (0,s)
  | k+1, page, s => do
    let region ← s.vmas.regionAt page
    match region with
    | none => return (-12,s)
    | some r =>
      if has r.flags vmaPopulating then return (-16,s)
      else if s.pages.getPhys page = 0 then protectPages k (page + pageSize) s
      else
        let (ok,pages) := s.pages.protect page (flagsForProt r.prot)
        let s := { s with pages := pages }
        if !ok then return (-22,s) else protectPages k (page + pageSize) s

def sysMprotect (L : UserLayout) (s : Mm n) (virt length : Nat) (prot : BitVec 32)
    (new new' : Nat) : Option (Int × Mm n) :=
  let aligned := pageCount length*pageSize
  if length = 0 || length > L.userEnd - L.userBegin || virt % pageSize ≠ 0 ||
      prot &&& ~~~7 ≠ 0 || writeAndExec prot then some (-22,s)
  else if !L.userRange virt aligned then some (-22,s)
  else do
    let busy ← populationInRange s.vmas (pageCount length) virt
    if busy then return (-16,s)
    else
      let covered ← s.vmas.covers virt (virt + aligned)
      if !covered then return (-12,s)
      else
        let (ok,vmas) ← s.vmas.setProt virt (virt + aligned) prot new new'
        let s := { s with vmas := vmas }
        if !ok then return (-12,s) else protectPages (pageCount length) virt s

def accessProt (write execute : Bool) : BitVec 32 :=
  if execute then protExec else if write then protWrite else protRead

def userAccessible (L : UserLayout) (s : Mm n) (page : Nat) (write : Bool) : Bool :=
  L.userRange page 1 && s.pages.getUserPhys page write ≠ 0

def handleFault (L : UserLayout) (s : Mm n) (t : Fin n) (addr : Nat) (write execute : Bool) :
    Option (Mm n) := do
  let page := pageBase addr
  let region ← s.vmas.regionAt page
  match region with
  | none => return s.finish t 0
  | some r =>
    if has r.flags vmaPopulating || !has r.prot (accessProt write execute) then
      return s.finish t 0
    else if s.pages.getPhys page ≠ 0 then
      return s.finish t (s.userAccessible L page write).toNat
    else if !has r.flags vmaOwnsFrames || !has r.flags mapAnonymous then return s.finish t 0
    else return s.setCall t (.faulting page write execute)

def faultAlloc (s : Mm n) (t : Fin n) (page : Nat) (write execute : Bool) (c : Choice) : Mm n :=
  if c.frame = 0 then s.finish t 0
  else (s.take c.frame).setCall t (.mapping page write execute c.frame)

def faultMap (L : UserLayout) (s : Mm n) (t : Fin n) (page : Nat) (write execute : Bool)
    (frame : Nat) (c : Choice) : Option (Mm n) := do
  let region ← s.vmas.regionAt page
  match region with
  | none => return s.setCall t (.discarding frame false)
  | some r =>
    let permitted := has r.prot (accessProt write execute)
    if permitted && has r.flags vmaOwnsFrames && !has r.flags vmaPopulating &&
        has r.flags mapAnonymous && s.pages.getPhys page = 0 then
      let s := { s with pages := s.pages.map page frame (flagsForProt r.prot) c.tables }
      if s.pages.getPhys page ≠ 0 then return s.finish t 1
      else return s.setCall t (.discarding frame false)
    else if permitted && s.pages.getPhys page ≠ 0 then
      return s.setCall t (.discarding frame (s.userAccessible L page write))
    else return s.setCall t (.discarding frame false)

def next (L : UserLayout) (s : Mm n) (t : Fin n) (c : Choice) : Option (Mm n) :=
  match s.calls t with
  | .idle _ => some s
  | .populating p i => s.populate t p i c
  | .installing p i phys => s.install t p i phys c
  | .releasing p installed i frame error =>
    (s.freePage frame).map fun s => s.setCall t (.unwinding p installed i error)
  | .unwinding p installed i error => s.unwind t p installed i error c
  | .resetting p error => some (s.reset t p error)
  | .faulting page write execute => some (s.faultAlloc t page write execute c)
  | .mapping page write execute frame => s.faultMap L t page write execute frame c
  | .discarding frame resolved => (s.freePage frame).map fun s => s.finish t resolved.toNat

inductive Event (n : Nat) where
  | mmap (t : Fin n) (args : MmapArgs) (new : Nat)
  | munmap (t : Fin n) (addr length : UInt64) (new new' right : Nat)
  | mprotect (t : Fin n) (addr length : UInt64) (prot : BitVec 32) (new new' : Nat)
  | fault (t : Fin n) (addr : UInt64) (write execute : Bool)
  | next (t : Fin n) (c : Choice)

def Event.thread : Event n → Fin n
  | .mmap t _ _ | .munmap t _ _ _ _ _ | .mprotect t _ _ _ _ _ | .fault t _ _ _ | .next t _ => t

def Event.begins : Event n → Bool
  | .next _ _ => false
  | _ => true

def Call.isIdle : Call → Bool
  | .idle _ => true
  | _ => false

def step (L : UserLayout) (s : Mm n) (e : Event n) : Option (Mm n) :=
  if e.begins && !Call.isIdle (s.calls e.thread) then some s
  else
    match e with
    | .mmap t args new => s.sysMmap L t args new
    | .munmap t addr length new new' right =>
      (s.sysMunmap L addr.toNat length.toNat new new' right).map fun r => r.2.finish t r.1
    | .mprotect t addr length prot new new' =>
      (s.sysMprotect L addr.toNat length.toNat prot new new').map fun r => r.2.finish t r.1
    | .fault t addr write execute => s.handleFault L t addr.toNat write execute
    | .next t c => s.next L t c

def init (L : UserLayout) (n : Nat) (pages : PageTable) : Mm n :=
  ⟨.init,pages,L.mmapBase,fun _ => .idle 0,[],[],fun _ => false⟩

def machine (L : UserLayout) (n : Nat) (pages : PageTable) : Machine (Option (Mm n)) (Event n) where
  initial := some (init L n pages)
  step := fun o e => o.bind fun s => s.step L e

/-- What the pmm may hand out: 0, or a page that nobody has. -/
def Spare (s : Mm n) (frame : Nat) : Prop :=
  frame = 0 ∨ frame % pageSize = 0 ∧ frame ∉ s.out ∧ frame ∉ s.supplied ∧
    ∀ e ∈ s.pages.entries, e.2.frame ≠ frame

instance (s : Mm n) (frame : Nat) : Decidable (s.Spare frame) :=
  inferInstanceAs (Decidable (frame = 0 ∨ frame % pageSize = 0 ∧ frame ∉ s.out ∧
    frame ∉ s.supplied ∧ ∀ e ∈ s.pages.entries, e.2.frame ≠ frame))

/-- What the step of a thread in the phase `c` may get as a frame. A callback supplies none of the
frames that these calls took from the pmm. -/
def Offers (s : Mm n) (frame : Nat) : Call → Prop
  | .populating p _ => if p.fileMap then pageBase frame ∉ s.out else s.Spare frame
  | .faulting _ _ _ => s.Spare frame
  | _ => True

instance (s : Mm n) (frame : Nat) : (c : Call) → Decidable (s.Offers frame c)
  | .populating p _ =>
    inferInstanceAs (Decidable (if p.fileMap then pageBase frame ∉ s.out else s.Spare frame))
  | .faulting _ _ _ => inferInstanceAs (Decidable (s.Spare frame))
  | .idle _ | .installing _ _ _ | .releasing _ _ _ _ _ | .unwinding _ _ _ _ | .resetting _ _
  | .mapping _ _ _ _ | .discarding _ _ => .isTrue trivial

/-- What `new` returns is null or no record's address, and within a call not twice the same. -/
def Fresh (s : Mm n) (new : Nat) : Prop := new ∉ s.vmas.tree.nodes

instance (s : Mm n) (new : Nat) : Decidable (s.Fresh new) :=
  inferInstanceAs (Decidable (new ∉ s.vmas.tree.nodes))

def Valid (o : Option (Mm n)) (e : Event n) : Prop :=
  match o, e with
  | none, _ => True
  | some s, .mmap _ _ new => s.Fresh new
  | some s, .munmap _ _ _ new new' right =>
    s.Fresh new ∧ s.Fresh new' ∧ s.Fresh right ∧ (new' = new → new' = 0) ∧
      (right = new → right = 0) ∧ (right = new' → right = 0)
  | some s, .mprotect _ _ _ _ new new' => s.Fresh new ∧ s.Fresh new' ∧ (new' = new → new' = 0)
  | some _, .fault _ _ _ _ => True
  | some s, .next t c => s.Offers c.frame (s.calls t) ∧ s.Fresh c.new

instance : (o : Option (Mm n)) → (e : Event n) → Decidable (Valid o e)
  | none, _ => .isTrue trivial
  | some s, .mmap _ _ new => inferInstanceAs (Decidable (s.Fresh new))
  | some s, .munmap _ _ _ new new' right => inferInstanceAs (Decidable
      (s.Fresh new ∧ s.Fresh new' ∧ s.Fresh right ∧ (new' = new → new' = 0) ∧
        (right = new → right = 0) ∧ (right = new' → right = 0)))
  | some s, .mprotect _ _ _ _ new new' => inferInstanceAs (Decidable
      (s.Fresh new ∧ s.Fresh new' ∧ (new' = new → new' = 0)))
  | some _, .fault _ _ _ _ => .isTrue trivial
  | some s, .next t c => inferInstanceAs (Decidable (s.Offers c.frame (s.calls t) ∧ s.Fresh c.new))

end Mm
end Rucux.Memory
