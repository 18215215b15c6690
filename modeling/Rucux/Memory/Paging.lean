import Mathlib.Data.BitVec
import Rucux.Lib.Radix
import Rucux.Memory.Mmap

/-!
The page tables of amd64: four levels of tables of 512 entries. `tables` has the words of the pages
that are in use as tables; `script` says what `alloc_page` will return, `taken` and `freed` which
pages it has given and `free_page` has got. What `invalidate` does is not part of it.
-/

namespace Rucux.Memory
open Lib

structure PageFlags where
  present : Bool
  writable : Bool
  user : Bool
  noExecute : Bool
  deriving DecidableEq

def PageFlags.bits (f : PageFlags) : BitVec 64 :=
  (if f.present then pagePresent else 0) ||| (if f.writable then pageWritable else 0) |||
    (if f.user then pageUser else 0) ||| if f.noExecute then pageNoExecute else 0

def frameMask : BitVec 64 := 0x000FFFFFFFFFF000

def offsetMask : BitVec 64 := 0xFFF

def pageSizeBit : BitVec 64 := 1 <<< 7

def permissionMask : BitVec 64 := pagePresent ||| pageWritable ||| pageUser ||| pageNoExecute

def pml4Index (virt : Nat) : Nat := virt / 2^39 % 512
def pdptIndex (virt : Nat) : Nat := virt / 2^30 % 512
def pdIndex (virt : Nat) : Nat := virt / 2^21 % 512
def ptIndex (virt : Nat) : Nat := virt / 2^12 % 512

def entryTable (entry : BitVec 64) : Option (BitVec 64) :=
  if entry &&& pagePresent ≠ 0 then some (entry &&& frameMask) else none

structure Paging where
  tables : BitVec 64 → Nat → BitVec 64
  /-- Slot 0 of `g_pml4` -/
  kernelEntry : BitVec 64
  script : List (Option (BitVec 64))
  taken : List (BitVec 64)
  freed : List (BitVec 64)

namespace Paging

def allocPage (s : Paging) : Option (BitVec 64) × Paging :=
  match s.script with
  | some page :: rest => (some page,{ s with script := rest, taken := page :: s.taken })
  | none :: rest => (none,{ s with script := rest })
  | [] => (none,s)

def freePage (s : Paging) (page : BitVec 64) : Paging := { s with freed := page :: s.freed }

def setEntry (s : Paging) (table : BitVec 64) (index : Nat) (entry : BitVec 64) : Paging :=
  { s with tables := Radix.write s.tables table index entry }

def clearTable (s : Paging) (table : BitVec 64) : Paging :=
  { s with tables := Function.update s.tables table fun _ => 0 }

def getNextTable (s : Paging) (table : BitVec 64) (index : Nat) (create : Bool) :
    Option (BitVec 64) × Paging :=
  match entryTable (s.tables table index) with
  | some next => (some next,s)
  | none =>
    if !create then (none,s)
    else
      match s.allocPage with
      | (none,s) => (none,s)
      | (some newTable,s) =>
        (some newTable, (s.clearTable newTable).setEntry table index
            (newTable ||| pagePresent ||| pageWritable ||| pageUser))

def createAddressSpace (s : Paging) : Option (BitVec 64) × Paging :=
  match s.allocPage with
  | (none,s) => (none,s)
  | (some newPml4,s) => (some newPml4,(s.clearTable newPml4).setEntry newPml4 0 s.kernelEntry)

def isUserPage (virt : Nat) : Bool := UserLayout.amd64.userRange virt pageSize

/-- `pml4` is the active page table. -/
def map (s : Paging) (pml4 : BitVec 64) (virt : Nat) (phys : BitVec 64) (flags : PageFlags) : Paging :=
  if !isUserPage virt && (BitVec.ofNat 64 virt ≠ phys || flags.bits &&& pageUser ≠ 0) || virt % pageSize ≠ 0 ||
      phys &&& offsetMask ≠ 0 then s
  else
    match s.getNextTable pml4 (pml4Index virt) true with
    | (none,s) => s
    | (some pdpt,s) =>
      match s.getNextTable pdpt (pdptIndex virt) true with
      | (none,s) => s
      | (some pd,s) =>
        match s.getNextTable pd (pdIndex virt) true with
        | (none,s) => s
        | (some pt,s) => s.setEntry pt (ptIndex virt) (phys &&& ~~~offsetMask ||| flags.bits)

def pageDirectory (s : Paging) (pml4 : BitVec 64) (virt : Nat) : Option (BitVec 64) :=
  (s.getNextTable pml4 (pml4Index virt) false).1.bind fun pdpt =>
    (s.getNextTable pdpt (pdptIndex virt) false).1

def unmap (s : Paging) (pml4 : BitVec 64) (virt : Nat) : Paging :=
  if !isUserPage virt || virt % pageSize ≠ 0 then s
  else
    match s.pageDirectory pml4 virt with
    | none => s
    | some pd =>
      if s.tables pd (pdIndex virt) &&& pageSizeBit ≠ 0 then s.setEntry pd (pdIndex virt) 0
      else
        match (s.getNextTable pd (pdIndex virt) false).1 with
        | none => s
        | some pt => s.setEntry pt (ptIndex virt) 0

def protect (s : Paging) (pml4 : BitVec 64) (virt : Nat) (flags : PageFlags) : Bool × Paging :=
  if !isUserPage virt || virt % pageSize ≠ 0 then (false,s)
  else
    match s.pageDirectory pml4 virt with
    | none => (false,s)
    | some pd =>
      if s.tables pd (pdIndex virt) &&& pageSizeBit ≠ 0 then (false,s)
      else
        match (s.getNextTable pd (pdIndex virt) false).1 with
        | none => (false,s)
        | some pt =>
          let entry := s.tables pt (ptIndex virt)
          if entry &&& pagePresent = 0 then (false,s)
          else
            (true,s.setEntry pt (ptIndex virt)
              (entry &&& ~~~permissionMask ||| flags.bits &&& permissionMask))

def getPhys (s : Paging) (pml4 : BitVec 64) (virt : Nat) : BitVec 64 :=
  match s.pageDirectory pml4 virt with
  | none => 0
  | some pd =>
    let entry := s.tables pd (pdIndex virt)
    if entry &&& pageSizeBit ≠ 0 then entry &&& 0x000FFFFFFFE00000 ||| BitVec.ofNat 64 (virt % 2^21)
    else
      match (s.getNextTable pd (pdIndex virt) false).1 with
      | none => 0
      | some pt =>
        let entry := s.tables pt (ptIndex virt)
        if entry &&& pagePresent ≠ 0 then entry &&& frameMask ||| BitVec.ofNat 64 (virt % 2^12) else 0

/-- The loop of `get_user_phys`, over the shifts that are left. -/
def userWalk (s : Paging) (virt : Nat) (required : BitVec 64) : BitVec 64 → List Nat → BitVec 64
  | _,[] => 0
  | table,shift :: shifts =>
    let entry := s.tables table (virt / 2^shift % 512)
    if entry &&& required ≠ required then 0
    else if shift = 12 || shift ≠ 39 && entry &&& 128 ≠ 0 then
      entry &&& frameMask &&& ~~~(BitVec.ofNat 64 (2^shift - 1)) ||| BitVec.ofNat 64 (virt % 2^shift)
    else s.userWalk virt required (entry &&& frameMask) shifts

def getUserPhys (s : Paging) (pml4 : BitVec 64) (virt : Nat) (write : Bool) : BitVec 64 :=
  if !UserLayout.amd64.userRange virt 1 then 0
  else s.userWalk virt (5 ||| if write then 2 else 0) (pml4 &&& frameMask) [39,30,21,12]

/-- `owns` is the `owns_frame` of the areas, which holds of all pages where there are none. -/
def discardPrivateTable (s : Paging) (owns : Nat → Bool) : Nat → BitVec 64 → Nat → List (BitVec 64)
  | 0,_,_ => []
  | depth + 1,address,base =>
    ((List.range 512).flatMap fun i =>
      (entryTable (s.tables address i)).elim [] fun child =>
        let virt := base + i * 2^(12 + 9 * depth)
        if depth = 0 then if owns virt then [child] else []
        else s.discardPrivateTable owns depth child virt) ++ [address]

/-- The pages that `discard_address_space` frees, in order. -/
def discarded (s : Paging) (owns : Nat → Bool) (root : BitVec 64) : List (BitVec 64) :=
  ((List.range' 1 255).flatMap fun i =>
    (entryTable (s.tables root i)).elim [] fun child =>
      s.discardPrivateTable owns 3 child (i * 2^39)) ++ [root]

def discardAddressSpace (s : Paging) (root : BitVec 64) (owns : Nat → Bool) (active : Bool) : Paging :=
  if root = 0 || active then s
  else (s.discarded owns root).foldl freePage s

end Paging

open List Paging Radix

theorem getLsbD_frameMask : ∀ i < 64, frameMask.getLsbD i = decide (12 ≤ i ∧ i < 52) := by decide

theorem getLsbD_offsetMask : ∀ i < 12, offsetMask.getLsbD i = true := by decide

theorem frame_of_aligned {p : BitVec 64} (hp : p.toNat < 2^52) (ha : p &&& offsetMask = 0) :
    p &&& frameMask = p := by
  apply BitVec.eq_of_getLsbD_eq
  intro i hi
  rw [BitVec.getLsbD_and,getLsbD_frameMask i hi]
  by_cases h12 : i < 12
  · have hbit : (p &&& offsetMask).getLsbD i = false := by rw [ha]; simp
    rw [BitVec.getLsbD_and,getLsbD_offsetMask i h12,Bool.and_true] at hbit
    simp [hbit]
  by_cases h52 : i < 52
  · simp [h52,Nat.not_lt.mp h12]
  have hbit : p.getLsbD i = false := by
    refine Nat.testBit_lt_two_pow (Nat.lt_of_lt_of_le hp ?_)
    exact Nat.pow_le_pow_right (by omega) (by omega)
  simp [hbit]

theorem or_and_distrib (x y z : BitVec 64) : (x ||| y) &&& z = x &&& z ||| y &&& z := by
  rw [BitVec.and_comm,BitVec.and_or_distrib_left,BitVec.and_comm z x,BitVec.and_comm z y]

def tableFlags : BitVec 64 := pagePresent ||| pageWritable ||| pageUser

theorem newTable_eq (a : BitVec 64) :
    a ||| pagePresent ||| pageWritable ||| pageUser = a ||| tableFlags := by
  rw [tableFlags,BitVec.or_assoc,BitVec.or_assoc,BitVec.or_assoc]

theorem entryTable_newTable {a : BitVec 64} (ha : a &&& frameMask = a) :
    entryTable (a ||| tableFlags) = some a := by
  have hpresent : (a ||| tableFlags) &&& pagePresent ≠ 0 := by
    intro h
    have hbit := congrArg (fun x : BitVec 64 => x.getLsbD 0) h
    simp [tableFlags,pagePresent] at hbit
  have hframe : (a ||| tableFlags) &&& frameMask = a := by
    have hflags : tableFlags &&& frameMask = 0 := by decide
    rw [or_and_distrib,ha,hflags]
    simp
  rw [entryTable,if_pos hpresent,hframe]

theorem entryTable_zero : entryTable 0 = none := by decide

def pathOf (virt : Nat) : List Nat := [pml4Index virt,pdptIndex virt,pdIndex virt]

def PathOk (p : List Nat) : Prop :=
  p.length ≤ 3 ∧ (∀ i ∈ p, i < 512) ∧ ∀ i ∈ p.head?, 1 ≤ i ∧ i < 256

def UserPage (virt : Nat) : Prop := isUserPage virt = true ∧ virt % pageSize = 0

theorem userPage_iff {v : Nat} : UserPage v ↔ 2^39 ≤ v ∧ v < 2^47 ∧ v % 4096 = 0 := by
  simp only [UserPage,isUserPage,UserLayout.userRange,Bool.and_eq_true,decide_eq_true_eq]
  simp only [UserLayout.amd64,pageSize]
  omega

theorem pathOk_init {p : List Nat} {i : Nat} (h : PathOk (p ++ [i])) : PathOk p := by
  obtain ⟨hlen,hlt,hhead⟩ := h
  refine ⟨by simp at hlen; omega,fun j hj => hlt j (by simp [hj]),fun j hj => hhead j ?_⟩
  cases p with
  | nil => cases hj
  | cons a p => exact hj

theorem pathOk_nil : PathOk [] := ⟨by simp,by simp,by simp⟩

theorem pathOk_pathOf {v : Nat} (hv : UserPage v) : PathOk (pathOf v) := by
  rw [userPage_iff] at hv
  refine ⟨by simp [pathOf],?_,?_⟩
  · simp only [pathOf,pml4Index,pdptIndex,pdIndex,mem_cons,not_mem_nil,or_false]
    omega
  · simp only [pathOf,pml4Index,head?_cons,Option.mem_def,Option.some.injEq]
    omega

theorem page_of_indices {v v' : Nat} (hv : UserPage v) (hv' : UserPage v') (hp : pathOf v = pathOf v')
    (hi : ptIndex v = ptIndex v') : v = v' := by
  rw [userPage_iff] at hv hv'
  simp only [pathOf,pml4Index,pdptIndex,pdIndex,ptIndex,List.cons.injEq,and_true] at hp hi
  omega

theorem pathOk_full {p : List Nat} (h : p.length = 3) (i : Nat) : ¬ PathOk (p ++ [i]) := by
  intro hp
  have hlen := hp.1
  simp [h] at hlen

namespace Paging
variable {s s' : Paging} {roots : BitVec 64 → Prop} {r a b : BitVec 64} {p q : List Nat} {i : Nat} {v : Nat}

abbrev walk (s : Paging) (r : BitVec 64) (p : List Nat) : Option (BitVec 64) :=
  Radix.walk entryTable s.tables r p

def leafOf (s : Paging) (r : BitVec 64) (virt : Nat) : BitVec 64 :=
  (s.walk r (pathOf virt)).elim 0 fun pt => s.tables pt (ptIndex virt)

structure Sound (s : Paging) (roots : BitVec 64 → Prop) : Prop where
  forest : Radix.Forest entryTable s.tables roots PathOk
  flags : ∀ r p a i, roots r → PathOk (p ++ [i]) → s.walk r p = some a →
    s.tables a i = 0 ∨ ∃ b, s.tables a i = b ||| tableFlags ∧ b &&& frameMask = b
  slots : ∀ r, roots r → s.tables r 0 = s.kernelEntry ∧ ∀ i, 256 ≤ i → s.tables r i = 0
  aligned : ∀ r, roots r → r &&& frameMask = r ∧ r ≠ 0

/-- What `alloc_page` will give is not in use for a table. -/
structure Fresh (s : Paging) (roots : BitVec 64 → Prop) : Prop where
  nodup : (s.script.filterMap id).Nodup
  page : ∀ a, some a ∈ s.script → a &&& frameMask = a ∧ a ≠ 0
  unused : ∀ a, some a ∈ s.script → ∀ r p, roots r → PathOk p → s.walk r p ≠ some a

def Ready (s : Paging) (k : Nat) : Prop := ∀ j, j < k → ∃ a, s.script[j]? = some (some a)

theorem Ready.less {k : Nat} (h : s.Ready (k + 1)) : s.Ready k := fun j hj => h j (by omega)

section
variable (h : s.Sound roots) (hr : roots r)
include h hr

theorem Sound.walk_head (hp : PathOk (p ++ [i])) (ha : s.walk r p = some a) :
    entryTable (s.tables a i) = none ∧ s.tables a i = 0 ∨
      ∃ b, entryTable (s.tables a i) = some b ∧ s.tables a i = b ||| tableFlags ∧ b &&& frameMask = b := by
  rcases h.flags r p a i hr hp ha with h0 | ⟨b,hb,hframe⟩
  · exact .inl ⟨by rw [h0]; exact entryTable_zero,h0⟩
  · exact .inr ⟨b,by rw [hb]; exact entryTable_newTable hframe,hb,hframe⟩

theorem Sound.setEntry (hp : PathOk p) (hlen : p.length = 3) (ha : s.walk r p = some a) (i : Nat)
    (e : BitVec 64) :
    (s.setEntry a i e).Sound roots ∧
    (∀ r' q, roots r' → PathOk q → (s.setEntry a i e).walk r' q = s.walk r' q) ∧
    (∀ b j, (s.setEntry a i e).tables b j = if b = a ∧ j = i then e else s.tables b j) := by
  have hwalk : ∀ r' q, roots r' → PathOk q → (s.setEntry a i e).walk r' q = s.walk r' q :=
    fun r' q hr' hq => h.forest.walk_write hr hp ha (pathOk_full hlen) hr' hq
  have hentry : ∀ b j, (s.setEntry a i e).tables b j = if b = a ∧ j = i then e else s.tables b j := by
    intro b j
    by_cases hba : b = a ∧ j = i
    · obtain ⟨rfl,rfl⟩ := hba
      simp [setEntry]
    rw [if_neg hba]
    by_cases hb : b = a
    · exact write_of_index_ne fun hj => hba ⟨hb,hj⟩
    · exact write_of_ne hb
  -- the table is not one of those on the way
  have hother : ∀ r' q b, roots r' → PathOk q → q.length < 3 → s.walk r' q = some b → b ≠ a := by
    rintro r' q b hr' hq hlt hb rfl
    obtain ⟨-,rfl⟩ := h.forest.unique r r' p q b hr hr' hp hq ha hb
    omega
  refine ⟨⟨h.forest.write hr hp ha (pathOk_full hlen),fun r' q b j hr' hq hb => ?_,fun r' hr' => ?_,
    h.aligned⟩,hwalk,hentry⟩
  · have hq' := pathOk_init hq
    have hlt : q.length < 3 := by
      have hle := hq.1
      simp at hle
      omega
    rw [hwalk r' q hr' hq'] at hb
    rw [hentry,if_neg fun hba => hother r' q b hr' hq' hlt hb hba.1]
    exact h.flags r' q b j hr' hq hb
  have hne := hother r' [] r' hr' pathOk_nil (by simp) rfl
  obtain ⟨h0,h256⟩ := h.slots r' hr'
  refine ⟨?_,fun j hj => ?_⟩
  · rw [hentry,if_neg fun hba => hne hba.1]
    exact h0
  · rw [hentry,if_neg fun hba => hne hba.1]
    exact h256 j hj

theorem Sound.leaf_setEntry (hv : UserPage v) (ha : s.walk r (pathOf v) = some a) (e : BitVec 64)
    {r' : BitVec 64} {v' : Nat} (hr' : roots r') (hv' : UserPage v') :
    (s.setEntry a (ptIndex v) e).leafOf r' v' =
      if r' = r ∧ v' = v then e else s.leafOf r' v' := by
  obtain ⟨-,hwalk,hentry⟩ := h.setEntry hr (pathOk_pathOf hv) rfl ha (ptIndex v) e
  unfold leafOf
  rw [hwalk r' _ hr' (pathOk_pathOf hv')]
  by_cases hsame : r' = r ∧ v' = v
  · obtain ⟨rfl,rfl⟩ := hsame
    rw [ha,if_pos ⟨rfl,rfl⟩]
    simp [hentry]
  rw [if_neg hsame]
  cases hb : s.walk r' (pathOf v') with
  | none => rfl
  | some b =>
    simp only [Option.elim_some]
    rw [hentry,if_neg]
    rintro ⟨rfl,hi⟩
    obtain ⟨rfl,hpath⟩ :=
      h.forest.unique r r' _ _ b hr hr' (pathOk_pathOf hv) (pathOk_pathOf hv') ha hb
    exact hsame ⟨rfl,(page_of_indices hv hv' hpath hi.symm).symm⟩

end

theorem walk_of_tables (ht : s'.tables = s.tables) : s'.walk r p = s.walk r p := by
  unfold walk
  rw [ht]

theorem leafOf_of_tables (ht : s'.tables = s.tables) : s'.leafOf r v = s.leafOf r v := by
  unfold leafOf
  rw [walk_of_tables ht,ht]

theorem Sound.of_tables (h : s.Sound roots) (ht : s'.tables = s.tables) (hk : s'.kernelEntry = s.kernelEntry) :
    s'.Sound roots := by
  refine ⟨by rw [ht]; exact h.forest,fun r p a i hr hp ha => ?_,fun r hr => by rw [ht,hk]; exact h.slots r hr,
    h.aligned⟩
  rw [walk_of_tables ht] at ha
  rw [ht]
  exact h.flags r p a i hr hp ha

theorem Fresh.of_suffix (hf : s.Fresh roots) (ht : s'.tables = s.tables) (hs : s'.script <:+ s.script) :
    s'.Fresh roots := by
  refine ⟨hf.nodup.sublist (hs.sublist.filterMap id),fun a ha => hf.page a (hs.subset ha),fun a ha r p hr hp => ?_⟩
  rw [walk_of_tables ht]
  exact hf.unused a (hs.subset ha) r p hr hp

def InUse (s : Paging) (roots : BitVec 64 → Prop) (a : BitVec 64) : Prop :=
  ∃ r p, roots r ∧ PathOk p ∧ s.walk r p = some a

def Draws (s s' : Paging) (roots : BitVec 64 → Prop) : Prop :=
  ∃ new, s'.taken = new ++ s.taken ∧ s.script.filterMap id = new.reverse ++ s'.script.filterMap id ∧
    ∀ a, s'.InUse roots a ↔ s.InUse roots a ∨ a ∈ new

theorem Draws.of_inUse (ht : s'.taken = s.taken) (hs : s.script.filterMap id = s'.script.filterMap id)
    (hw : ∀ r p, roots r → PathOk p → s'.walk r p = s.walk r p) : Draws s s' roots := by
  refine ⟨[],by simpa using ht,by simpa using hs,fun a => ?_⟩
  simp only [not_mem_nil,or_false]
  constructor
  · rintro ⟨r,p,hr,hp,ha⟩
    exact ⟨r,p,hr,hp,by rw [← hw r p hr hp]; exact ha⟩
  · rintro ⟨r,p,hr,hp,ha⟩
    exact ⟨r,p,hr,hp,by rw [hw r p hr hp]; exact ha⟩

theorem Draws.trans {s'' : Paging} (h : Draws s s' roots) (h' : Draws s' s'' roots) : Draws s s'' roots := by
  obtain ⟨new,ht,hs,hin⟩ := h
  obtain ⟨new',ht',hs',hin'⟩ := h'
  refine ⟨new' ++ new,by rw [ht',ht,append_assoc],?_,fun a => ?_⟩
  · rw [hs,hs',reverse_append,append_assoc]
  · rw [hin',hin,mem_append,or_assoc,or_comm (a := a ∈ new)]

structure Extends (s s' : Paging) (roots : BitVec 64 → Prop) : Prop where
  sound : s'.Sound roots
  fresh : s'.Fresh roots
  leaf : ∀ r v, roots r → UserPage v → s'.leafOf r v = s.leafOf r v
  walk : ∀ r p a, roots r → PathOk p → s.walk r p = some a → s'.walk r p = some a
  kernelEntry : s'.kernelEntry = s.kernelEntry
  freed : s'.freed = s.freed
  suffix : s'.script <:+ s.script
  draws : Draws s s' roots

theorem Extends.refl (h : s.Sound roots) (hf : s.Fresh roots) : Extends s s roots :=
  ⟨h,hf,fun _ _ _ _ => rfl,fun _ _ _ _ _ => id,rfl,rfl,suffix_refl _,.of_inUse rfl rfl fun _ _ _ _ => rfl⟩

theorem Extends.trans {s'' : Paging} (h : Extends s s' roots) (h' : Extends s' s'' roots) :
    Extends s s'' roots :=
  ⟨h'.sound,h'.fresh,fun r v hr hv => (h'.leaf r v hr hv).trans (h.leaf r v hr hv),
    fun r p a hr hp ha => h'.walk r p a hr hp (h.walk r p a hr hp ha),
    h'.kernelEntry.trans h.kernelEntry,h'.freed.trans h.freed,h'.suffix.trans h.suffix,h.draws.trans h'.draws⟩

section
variable (h : s.Sound roots) {rest : List (Option (BitVec 64))}
include h

theorem Extends.of_refused (hf : s.Fresh roots) (hs : s.script = none :: rest) :
    Extends s { s with script := rest } roots := by
  have hsuffix : rest <:+ s.script := by
    rw [hs]
    exact suffix_cons _ _
  exact ⟨h.of_tables rfl rfl,hf.of_suffix rfl hsuffix,fun r v _ _ => leafOf_of_tables rfl,fun _ _ _ _ _ => id,rfl,rfl,
    hsuffix,.of_inUse rfl (by rw [hs]; rfl) fun _ _ _ _ => rfl⟩

theorem Sound.attach (s' : Paging) (hf : s.Fresh roots) (hr : roots r) (hp : PathOk (p ++ [i]))
    (ha : s.walk r p = some a) (hvacant : entryTable (s.tables a i) = none) (hs : s.script = some b :: rest)
    (ht : s'.tables = attach s.tables a b i (b ||| tableFlags) fun _ => 0)
    (hk : s'.kernelEntry = s.kernelEntry) (hfr : s'.freed = s.freed) (hs' : s'.script = rest)
    (htk : s'.taken = b :: s.taken) : Extends s s' roots ∧ s'.walk r (p ++ [i]) = some b := by
  have hin : some b ∈ s.script := by rw [hs]; exact mem_cons_self
  obtain ⟨hb,-⟩ := hf.page b hin
  have hnodup : (b :: rest.filterMap id).Nodup := by simpa [hs] using hf.nodup
  have hat : Radix.Attaches entryTable s.tables roots PathOk r p i a b (b ||| tableFlags) fun _ => 0 :=
    ⟨hr,pathOk_init hp,ha,hvacant,entryTable_newTable hb,fun _ => entryTable_zero,
      fun r' q hr' hq => hf.unused b hin r' q hr' hq⟩
  have hold : ∀ r' q c, roots r' → PathOk q → s.walk r' q = some c → s'.walk r' q = some c := by
    intro r' q c hr' hq hc
    unfold walk
    rw [ht]
    exact hat.walk_old h.forest hr' hq hc
  have hnew : ∀ r' q c, roots r' → PathOk q → s'.walk r' q = some c →
      s.walk r' q = some c ∨ r' = r ∧ q = p ++ [i] ∧ c = b := by
    intro r' q c hr' hq hc
    unfold walk at hc
    rw [ht] at hc
    exact hat.walk_new h.forest hr' hq hc
  have hentry : ∀ c j, c ≠ b → (c = a → j ≠ i) → s'.tables c j = s.tables c j := by
    intro c j hcb hci
    rw [ht]
    exact attach_of_ne hcb hci
  have hblank : ∀ j, s'.tables b j = 0 := by
    intro j
    rw [ht]
    exact hat.entry_new
  have hself : s'.tables a i = b ||| tableFlags := by
    rw [ht]
    exact attach_self
  have hunused := hf.unused b hin
  have hreach : s'.walk r (p ++ [i]) = some b := by
    refine Radix.walk_concat_some.mpr ⟨a,hold r p a hr (pathOk_init hp) ha,?_⟩
    rw [hself]
    exact entryTable_newTable hb
  have hplen : p.length < 3 := by
    have hle := hp.1
    simp at hle
    omega
  refine ⟨⟨⟨by rw [ht]; exact hat.forest h.forest,fun r' q c j hr' hq hc => ?_,fun r' hr' => ?_,
    h.aligned⟩,⟨?_,fun x hx => ?_,fun x hx r' q hr' hq hw => ?_⟩,fun r' v hr' hv => ?_,hold,hk,hfr,?_,
    [b],by simpa using htk,by rw [hs,hs']; rfl,fun x => ?_⟩,hreach⟩
  · rcases hnew r' q c hr' (pathOk_init hq) hc with hc | ⟨-,-,rfl⟩
    · by_cases hcj : c = a ∧ j = i
      · obtain ⟨rfl,rfl⟩ := hcj
        exact .inr ⟨b,hself,hb⟩
      have hcb : c ≠ b := by
        rintro rfl
        exact hunused r' q hr' (pathOk_init hq) hc
      rw [hentry c j hcb fun hca hji => hcj ⟨hca,hji⟩]
      exact h.flags r' q c j hr' hq hc
    · exact .inl (hblank j)
  · have hrb : r' ≠ b := by
      rintro rfl
      exact hunused r' [] hr' pathOk_nil rfl
    -- slots 0 and above 255 are on no path
    have hslot : ∀ j, j = 0 ∨ 256 ≤ j → s'.tables r' j = s.tables r' j := by
      intro j hj
      refine hentry r' j hrb ?_
      rintro rfl rfl
      obtain ⟨-,rfl⟩ := h.forest.unique r r' p [] r' hr hr' (pathOk_init hp) pathOk_nil ha rfl
      have hhead := hp.2.2 j (by simp)
      omega
    obtain ⟨h0,h256⟩ := h.slots r' hr'
    refine ⟨by rw [hslot 0 (.inl rfl),hk]; exact h0,fun j hj => ?_⟩
    rw [hslot j (.inr hj)]
    exact h256 j hj
  · rw [hs']
    exact (nodup_cons.mp hnodup).2
  · rw [hs'] at hx
    exact hf.page x (by rw [hs]; exact mem_cons_of_mem _ hx)
  · rw [hs'] at hx
    rcases hnew r' q x hr' hq hw with hw | ⟨-,-,rfl⟩
    · exact hf.unused x (by rw [hs]; exact mem_cons_of_mem _ hx) r' q hr' hq hw
    · exact (nodup_cons.mp hnodup).1 (mem_filterMap.mpr ⟨some x,hx,rfl⟩)
  · have hq := pathOk_pathOf hv
    unfold leafOf
    cases hc : s.walk r' (pathOf v) with
    | some c =>
      rw [hold r' _ c hr' hq hc]
      have hcb : c ≠ b := by
        rintro rfl
        exact hunused r' _ hr' hq hc
      refine hentry c _ hcb ?_
      rintro rfl
      obtain ⟨-,rfl⟩ := h.forest.unique r r' p _ c hr hr' (pathOk_init hp) hq ha hc
      simp [pathOf] at hplen
    | none =>
      cases hc' : s'.walk r' (pathOf v) with
      | none => rfl
      | some c =>
        rcases hnew r' _ c hr' hq hc' with hc' | ⟨-,-,rfl⟩
        · rw [hc] at hc'
          cases hc'
        · simp [hblank]
  · rw [hs',hs]
    exact suffix_cons _ _
  rw [mem_singleton]
  constructor
  · rintro ⟨r',q,hr',hq,hx⟩
    rcases hnew r' q x hr' hq hx with hx | ⟨-,-,rfl⟩
    · exact .inl ⟨r',q,hr',hq,hx⟩
    · exact .inr rfl
  rintro (⟨r',q,hr',hq,hx⟩ | rfl)
  · exact ⟨r',q,hr',hq,hold r' q x hr' hq hx⟩
  · exact ⟨r,p ++ [i],hr,hp,hreach⟩

end

theorem getNextTable_false (s : Paging) (table : BitVec 64) (index : Nat) :
    s.getNextTable table index false = (entryTable (s.tables table index),s) := by
  unfold getNextTable
  cases entryTable (s.tables table index) <;> rfl

theorem Sound.getNextTable (h : s.Sound roots) (hf : s.Fresh roots) (hr : roots r) (hp : PathOk (p ++ [i]))
    (ha : s.walk r p = some a) :
    Extends s (s.getNextTable a i true).2 roots ∧
    (∀ b, (s.getNextTable a i true).1 = some b → (s.getNextTable a i true).2.walk r (p ++ [i]) = some b) ∧
    (∀ k, s.Ready (k + 1) → (s.getNextTable a i true).1 ≠ none ∧ (s.getNextTable a i true).2.Ready k) := by
  unfold Paging.getNextTable
  cases he : entryTable (s.tables a i) with
  | some b =>
    refine ⟨.refl h hf,fun c hc => ?_,fun k hk => ⟨by simp,hk.less⟩⟩
    cases hc
    exact walk_concat_some.mpr ⟨a,ha,he⟩
  | none =>
    unfold allocPage
    cases hs : s.script with
    | nil =>
      refine ⟨.refl h hf,fun c hc => (by cases hc),fun k hk => ?_⟩
      obtain ⟨b,hb⟩ := hk 0 (by omega)
      rw [hs] at hb
      cases hb
    | cons o rest =>
      cases o with
      | none =>
        refine ⟨?_,fun c hc => (by cases hc),fun k hk => ?_⟩
        · exact Extends.of_refused h hf hs
        obtain ⟨b,hb⟩ := hk 0 (by omega)
        rw [hs] at hb
        cases hb
      | some b =>
        have hattach := h.attach ((({ s with script := rest, taken := b :: s.taken } : Paging).clearTable b).setEntry
          a i (b ||| pagePresent ||| pageWritable ||| pageUser)) hf hr hp ha he hs
          (by rw [newTable_eq]; rfl) rfl rfl rfl rfl
        refine ⟨hattach.1,fun c hc => ?_,fun k hk => ⟨by simp,fun j hj => ?_⟩⟩
        · cases hc
          exact hattach.2
        obtain ⟨c,hc⟩ := hk (j + 1) (by omega)
        rw [hs] at hc
        exact ⟨c,hc⟩

end Paging

open Option UserLayout BitVec

theorem aligned_and_not {p : BitVec 64} (h : p &&& offsetMask = 0) : p &&& ~~~offsetMask = p := by
  apply eq_of_getLsbD_eq
  intro i hi
  have hbit : (p &&& offsetMask).getLsbD i = false := by rw [h]; simp
  rw [getLsbD_and] at hbit
  rw [getLsbD_and,getLsbD_not]
  simp only [hi,decide_true,Bool.true_and]
  cases hp : p.getLsbD i with
  | false => rfl
  | true =>
    rw [hp,Bool.true_and] at hbit
    rw [hbit]
    rfl

theorem bits_and_frameMask (f : PageFlags) : f.bits &&& frameMask = 0 := by
  obtain ⟨a,b,c,d⟩ := f
  cases a <;> cases b <;> cases c <;> cases d <;> decide

theorem bits_and_permissionMask (f : PageFlags) : f.bits &&& permissionMask = f.bits := by
  obtain ⟨a,b,c,d⟩ := f
  cases a <;> cases b <;> cases c <;> cases d <;> decide

theorem frame_and_permissionMask {p : BitVec 64} (h : p &&& frameMask = p) : p &&& permissionMask = 0 := by
  have hmask : frameMask &&& permissionMask = 0 := by decide
  rw [← h,BitVec.and_assoc,hmask]
  simp

theorem entry_parts {p : BitVec 64} (h : p &&& frameMask = p) (f : PageFlags) :
    (p ||| f.bits) &&& frameMask = p ∧ (p ||| f.bits) &&& permissionMask = f.bits := by
  refine ⟨?_,?_⟩
  · rw [or_and_distrib,h,bits_and_frameMask]
    simp
  · rw [or_and_distrib,frame_and_permissionMask h,bits_and_permissionMask]
    simp

theorem not_large {b : BitVec 64} (h : b &&& frameMask = b) : (b ||| tableFlags) &&& pageSizeBit = 0 := by
  have hmask : frameMask &&& pageSizeBit = 0 := by decide
  have hflags : tableFlags &&& pageSizeBit = 0 := by decide
  rw [or_and_distrib,hflags,← h,BitVec.and_assoc,hmask]
  simp

theorem tableFlags_required {b x : BitVec 64} (hx : tableFlags &&& x = x) : (b ||| tableFlags) &&& x = x := by
  rw [or_and_distrib,hx]
  apply eq_of_getLsbD_eq
  intro i hi
  cases b.getLsbD i <;> simp

theorem zero_and_ne {x : BitVec 64} (h : x ≠ 0) : (0 : BitVec 64) &&& x ≠ x := by
  show 0#64 &&& x ≠ x
  rw [zero_and]
  exact Ne.symm h

def pageOf (virt : Nat) : Nat := virt - virt % 4096

theorem pathOf_pageOf (virt : Nat) : pathOf (pageOf virt) = pathOf virt := by
  simp only [pathOf,pageOf,pml4Index,pdptIndex,pdIndex,List.cons.injEq,and_true]
  omega

theorem ptIndex_pageOf (virt : Nat) : ptIndex (pageOf virt) = ptIndex virt := by
  simp only [pageOf,ptIndex]
  omega

theorem userPage_pageOf {virt : Nat} (h : amd64.userRange virt 1 = true) :
    UserPage (pageOf virt) := by
  simp only [userRange,Bool.and_eq_true,decide_eq_true_eq] at h
  simp only [amd64] at h
  rw [userPage_iff]
  unfold pageOf
  omega

namespace Paging
variable {s s' : Paging} {roots : BitVec 64 → Prop} {r a b : BitVec 64} {p q : List Nat} {i : Nat} {v : Nat}
  {phys : BitVec 64} {flags : PageFlags}

def Sets (s s' : Paging) (roots : BitVec 64 → Prop) (r : BitVec 64) (v : Nat) (e : BitVec 64) : Prop :=
  ∀ r' v', roots r' → UserPage v' → s'.leafOf r' v' = if r' = r ∧ v' = v then e else s.leafOf r' v'

def Same (s s' : Paging) (roots : BitVec 64 → Prop) : Prop :=
  ∀ r' v', roots r' → UserPage v' → s'.leafOf r' v' = s.leafOf r' v'

structure Keeps (s s' : Paging) (roots : BitVec 64 → Prop) : Prop where
  sound : s'.Sound roots
  fresh : s'.Fresh roots
  kernelEntry : s'.kernelEntry = s.kernelEntry
  freed : s'.freed = s.freed
  suffix : s'.script <:+ s.script
  draws : Draws s s' roots

theorem Extends.keeps (h : Extends s s' roots) : Keeps s s' roots :=
  ⟨h.sound,h.fresh,h.kernelEntry,h.freed,h.suffix,h.draws⟩

theorem Fresh.setEntry (h : s.Sound roots) (hf : s.Fresh roots) (hr : roots r) (hp : PathOk p) (hlen : p.length = 3)
    (ha : s.walk r p = some a) (i : Nat) (e : BitVec 64) : (s.setEntry a i e).Fresh roots :=
  ⟨hf.nodup,hf.page,fun x hx r' q hr' hq => by
    rw [(h.setEntry hr hp hlen ha i e).2.1 r' q hr' hq]
    exact hf.unused x hx r' q hr' hq⟩

theorem Sound.setLeaf (h : s.Sound roots) (hr : roots r) (hv : UserPage v) (ha : s.walk r (pathOf v) = some a)
    (e : BitVec 64) : (s.setEntry a (ptIndex v) e).Sound roots ∧ Sets s (s.setEntry a (ptIndex v) e) roots r v e :=
  ⟨(h.setEntry hr (pathOk_pathOf hv) rfl ha _ e).1,fun _ _ hr' hv' => h.leaf_setEntry hr hv ha e hr' hv'⟩

theorem map_user (hv : UserPage v) (ha : phys &&& offsetMask = 0) : s.map r v phys flags =
      match s.getNextTable r (pml4Index v) true with
      | (none,s) => s
      | (some pdpt,s) =>
        match s.getNextTable pdpt (pdptIndex v) true with
        | (none,s) => s
        | (some pd,s) =>
          match s.getNextTable pd (pdIndex v) true with
          | (none,s) => s
          | (some pt,s) => s.setEntry pt (ptIndex v) (phys ||| flags.bits) := by
  unfold map
  have hc : (!isUserPage v && (BitVec.ofNat 64 v ≠ phys || flags.bits &&& pageUser ≠ 0) ||
      v % pageSize ≠ 0 || phys &&& offsetMask ≠ 0) = false := by
    rw [hv.1,hv.2,ha]
    simp
  rw [hc,aligned_and_not ha]
  rfl

theorem map_rejected (ha : phys &&& offsetMask ≠ 0) : s.map r v phys flags = s := by
  unfold map
  rw [if_pos]
  rw [decide_eq_true ha,Bool.or_true]

theorem pathOk_parts (h : PathOk (pathOf v)) :
    PathOk ([] ++ [pml4Index v]) ∧ PathOk ([pml4Index v] ++ [pdptIndex v]) := by
  have hp := pathOk_init (i := pdIndex v) (p := [pml4Index v] ++ [pdptIndex v]) h
  exact ⟨pathOk_init (i := pdptIndex v) (p := [pml4Index v]) hp,hp⟩

theorem Sound.map (h : s.Sound roots) (hf : s.Fresh roots) (hr : roots r) (hv : UserPage v)
    (ha : phys &&& offsetMask = 0) (flags : PageFlags) :
    Keeps s (s.map r v phys flags) roots ∧
    (Sets s (s.map r v phys flags) roots r v (phys ||| flags.bits) ∨
      Same s (s.map r v phys flags) roots ∧ ¬ s.Ready 3) ∧
    ∀ k, s.Ready (k + 3) → (s.map r v phys flags).Ready k := by
  have hpath := pathOk_pathOf hv
  obtain ⟨hp₁,hp₂⟩ := pathOk_parts hpath
  rw [map_user hv ha]
  obtain ⟨he₁,hw₁,hready₁⟩ := h.getNextTable hf hr hp₁ (a := r) rfl
  cases hg₁ : s.getNextTable r (pml4Index v) true with
  | mk o₁ s₁ =>
  rw [hg₁] at he₁ hw₁ hready₁
  cases o₁ with
  | none =>
    exact ⟨he₁.keeps,.inr ⟨fun r' v' => he₁.leaf r' v',fun hn => (hready₁ 2 hn).1 rfl⟩,
      fun k hk => absurd rfl (hready₁ (k + 2) hk).1⟩
  | some pdpt =>
  obtain ⟨he₂,hw₂,hready₂⟩ := he₁.sound.getNextTable he₁.fresh hr hp₂ (hw₁ pdpt rfl)
  dsimp only
  cases hg₂ : s₁.getNextTable pdpt (pdptIndex v) true with
  | mk o₂ s₂ =>
  rw [hg₂] at he₂ hw₂ hready₂
  cases o₂ with
  | none =>
    exact ⟨(he₁.trans he₂).keeps,.inr ⟨fun r' v' => (he₁.trans he₂).leaf r' v',
      fun hn => (hready₂ 1 (hready₁ 2 hn).2).1 rfl⟩,
      fun k hk => absurd rfl (hready₂ (k + 1) (hready₁ (k + 2) hk).2).1⟩
  | some pd =>
  obtain ⟨he₃,hw₃,hready₃⟩ :=
    he₂.sound.getNextTable (p := [pml4Index v] ++ [pdptIndex v]) he₂.fresh hr hpath (hw₂ pd rfl)
  have he := (he₁.trans he₂).trans he₃
  dsimp only
  cases hg₃ : s₂.getNextTable pd (pdIndex v) true with
  | mk o₃ s₃ =>
  rw [hg₃] at he₃ hw₃ hready₃ he
  cases o₃ with
  | none =>
    exact ⟨he.keeps,.inr ⟨fun r' v' => he.leaf r' v',
      fun hn => (hready₃ 0 (hready₂ 1 (hready₁ 2 hn).2).2).1 rfl⟩,
      fun k hk => absurd rfl (hready₃ k (hready₂ (k + 1) (hready₁ (k + 2) hk).2).2).1⟩
  | some pt =>
    obtain ⟨hsound,hsets⟩ := he.sound.setLeaf hr hv (hw₃ pt rfl) (phys ||| flags.bits)
    have hdraws : Draws s₃ (s₃.setEntry pt (ptIndex v) (phys ||| flags.bits)) roots :=
      .of_inUse rfl rfl (he.sound.setEntry hr hpath rfl (hw₃ pt rfl) _ _).2.1
    refine ⟨⟨hsound,Fresh.setEntry he.sound he.fresh hr hpath rfl (hw₃ pt rfl) _ _,he.kernelEntry,he.freed,
      he.suffix,he.draws.trans hdraws⟩,.inl fun r' v' hr' hv' => ?_,
      fun k hk => (hready₃ k (hready₂ (k + 1) (hready₁ (k + 2) hk).2).2).2⟩
    rw [hsets r' v' hr' hv',he.leaf r' v' hr' hv']

theorem pageDirectory_eq (s : Paging) (r : BitVec 64) (v : Nat) :
    s.pageDirectory r v = s.walk r [pml4Index v,pdptIndex v] := by
  unfold pageDirectory
  simp only [getNextTable_false,Paging.walk,Radix.walk]
  cases entryTable (s.tables r (pml4Index v)) with
  | none => rfl
  | some b => simp

theorem Sound.directory (h : s.Sound roots) (hr : roots r) (hp : PathOk (pathOf v))
    (ha : s.pageDirectory r v = some a) :
    s.tables a (pdIndex v) &&& pageSizeBit = 0 ∧
      s.walk r (pathOf v) = entryTable (s.tables a (pdIndex v)) := by
  rw [pageDirectory_eq] at ha
  refine ⟨?_,?_⟩
  · rcases h.flags r [pml4Index v,pdptIndex v] a (pdIndex v) hr hp ha with h0 | ⟨b,hb,hframe⟩
    · rw [h0]
      simp
    · rw [hb]
      exact not_large hframe
  have hw : Radix.walk entryTable s.tables r ([pml4Index v,pdptIndex v] ++ [pdIndex v]) = _ := Radix.walk_concat
  rw [show Radix.walk entryTable s.tables r [pml4Index v,pdptIndex v] = some a from ha] at hw
  exact hw

theorem walk_of_no_directory (ha : s.pageDirectory r v = none) : s.walk r (pathOf v) = none := by
  rw [pageDirectory_eq] at ha
  have hw : Radix.walk entryTable s.tables r ([pml4Index v,pdptIndex v] ++ [pdIndex v]) = _ := Radix.walk_concat
  rw [show Radix.walk entryTable s.tables r [pml4Index v,pdptIndex v] = none from ha] at hw
  exact hw

theorem leafOf_none (ha : s.walk r (pathOf v) = none) : s.leafOf r v = 0 := by
  rw [leafOf,ha]
  rfl

theorem leafOf_some (ha : s.walk r (pathOf v) = some a) : s.leafOf r v = s.tables a (ptIndex v) := by
  rw [leafOf,ha]
  rfl

theorem Sets.of_same (h : s.leafOf r v = b) : Sets s s roots r v b := by
  intro r' v' _ _
  split
  · rename_i hsame
    rw [hsame.1,hsame.2,h]
  · rfl

theorem Sound.unmap (h : s.Sound roots) (hr : roots r) (hv : UserPage v) :
    (s.unmap r v).Sound roots ∧ (s.unmap r v).kernelEntry = s.kernelEntry ∧ Sets s (s.unmap r v) roots r v 0 := by
  have hself : s.walk r (pathOf v) = none →
      s.Sound roots ∧ s.kernelEntry = s.kernelEntry ∧ Sets s s roots r v 0 := fun hn =>
    ⟨h,rfl,.of_same (leafOf_none hn)⟩
  unfold Paging.unmap
  rw [if_neg (by simp [hv.1,hv.2])]
  cases hd : s.pageDirectory r v with
  | none => exact hself (walk_of_no_directory hd)
  | some pd =>
    obtain ⟨hlarge,hwalk⟩ := h.directory hr (pathOk_pathOf hv) hd
    simp only [hlarge,ne_eq,not_true_eq_false,if_false,getNextTable_false]
    cases ht : entryTable (s.tables pd (pdIndex v)) with
    | none => exact hself (by rw [hwalk,ht])
    | some pt =>
      obtain ⟨hsound,hsets⟩ := h.setLeaf hr hv (by rw [hwalk,ht]) 0
      exact ⟨hsound,rfl,hsets⟩

def protectedEntry (entry : BitVec 64) (flags : PageFlags) : BitVec 64 :=
  if entry &&& pagePresent = 0 then entry
  else entry &&& ~~~permissionMask ||| flags.bits &&& permissionMask

theorem protectedEntry_parts {e : BitVec 64} (h : e &&& pagePresent ≠ 0) (flags : PageFlags) :
    protectedEntry e flags &&& frameMask = e &&& frameMask ∧
      protectedEntry e flags &&& permissionMask = flags.bits := by
  have h₁ : ~~~permissionMask &&& frameMask = frameMask := by decide
  have h₂ : ~~~permissionMask &&& permissionMask = 0 := by decide
  rw [protectedEntry,if_neg h,bits_and_permissionMask]
  refine ⟨?_,?_⟩
  · rw [or_and_distrib,bits_and_frameMask,BitVec.and_assoc,h₁]
    exact or_zero
  · rw [or_and_distrib,bits_and_permissionMask,BitVec.and_assoc,h₂]
    simp

theorem pathOk_user (hv : amd64.userRange v 1 = true) : PathOk (pathOf v) := by
  rw [← pathOf_pageOf]
  exact pathOk_pathOf (userPage_pageOf hv)

theorem leafOf_pageOf : s.leafOf r (pageOf v) = s.leafOf r v := by
  rw [leafOf,leafOf,pathOf_pageOf,ptIndex_pageOf]

section
variable (h : s.Sound roots) (hr : roots r)
include h hr

theorem Sound.protect (hv : UserPage v) (flags : PageFlags) :
    (s.protect r v flags).2.Sound roots ∧ (s.protect r v flags).2.kernelEntry = s.kernelEntry ∧
    Sets s (s.protect r v flags).2 roots r v (protectedEntry (s.leafOf r v) flags) ∧
    ((s.protect r v flags).1 = true ↔ s.leafOf r v &&& pagePresent ≠ 0) := by
  have hself : s.leafOf r v &&& pagePresent = 0 → s.Sound roots ∧ s.kernelEntry = s.kernelEntry ∧
        Sets s s roots r v (protectedEntry (s.leafOf r v) flags) ∧
        (false = true ↔ s.leafOf r v &&& pagePresent ≠ 0) := fun hn =>
    ⟨h,rfl,.of_same (by rw [protectedEntry,if_pos hn]),by simp [hn]⟩
  have hnone : s.walk r (pathOf v) = none → s.leafOf r v &&& pagePresent = 0 := fun hn => by
    rw [leafOf_none hn]
    simp
  unfold Paging.protect
  rw [if_neg (by simp [hv.1,hv.2])]
  cases hd : s.pageDirectory r v with
  | none => exact hself (hnone (walk_of_no_directory hd))
  | some pd =>
    obtain ⟨hlarge,hwalk⟩ := h.directory hr (pathOk_pathOf hv) hd
    simp only [hlarge,ne_eq,not_true_eq_false,if_false,getNextTable_false]
    cases ht : entryTable (s.tables pd (pdIndex v)) with
    | none => exact hself (hnone (by rw [hwalk,ht]))
    | some pt =>
      rw [ht] at hwalk
      have hleaf := leafOf_some hwalk
      dsimp only
      split
      · rename_i hn
        rw [← hleaf] at hn
        exact hself hn
      rename_i hn
      rw [← hleaf] at hn
      have hentry : protectedEntry (s.leafOf r v) flags =
          s.tables pt (ptIndex v) &&& ~~~permissionMask ||| flags.bits &&& permissionMask := by
        rw [protectedEntry,if_neg hn,hleaf]
      obtain ⟨hsound,hs⟩ := h.setLeaf hr hv hwalk (protectedEntry (s.leafOf r v) flags)
      rw [hentry] at hsound hs
      rw [hentry]
      exact ⟨hsound,rfl,hs,⟨fun _ => hn,fun _ => rfl⟩⟩

theorem Sound.getPhys (hv : amd64.userRange v 1 = true) :
    s.getPhys r v = if s.leafOf r (pageOf v) &&& pagePresent ≠ 0 then
      s.leafOf r (pageOf v) &&& frameMask ||| BitVec.ofNat 64 (v % 2^12) else 0 := by
  rw [leafOf_pageOf]
  unfold Paging.getPhys
  cases hd : s.pageDirectory r v with
  | none =>
    rw [leafOf_none (walk_of_no_directory hd)]
    simp
  | some pd =>
    obtain ⟨hlarge,hwalk⟩ := h.directory hr (pathOk_user hv) hd
    simp only [hlarge,ne_eq,not_true_eq_false,if_false,getNextTable_false]
    cases ht : entryTable (s.tables pd (pdIndex v)) with
    | none =>
      rw [leafOf_none (by rw [hwalk,ht])]
      simp
    | some pt =>
      rw [leafOf_some (by rw [hwalk,ht])]

theorem Sound.userWalk_step (hp : PathOk (p ++ [i])) (ha : s.walk r p = some a) {shift : Nat}
    {shifts : List Nat} {x : BitVec 64} (hx : tableFlags &&& x = x) (hne : x ≠ 0)
    (hi : i = v / 2^shift % 512) (h12 : shift ≠ 12) :
    s.userWalk v x a (shift :: shifts) =
      (s.walk r (p ++ [i])).elim 0 fun b => s.userWalk v x b shifts := by
  subst hi
  have hw : s.walk r (p ++ [v / 2^shift % 512]) = entryTable (s.tables a (v / 2^shift % 512)) := by
    show Radix.walk entryTable s.tables r _ = _
    rw [Radix.walk_concat,show Radix.walk entryTable s.tables r p = some a from ha]
    rfl
  rw [hw,userWalk]
  rcases h.walk_head hr hp ha with ⟨hnone,hzero⟩ | ⟨b,hsome,hentry,hframe⟩
  · rw [hnone,hzero,if_pos (zero_and_ne hne)]
    rfl
  have hbit : (b ||| tableFlags) &&& 128 = 0 := not_large hframe
  have hnext : (b ||| tableFlags) &&& frameMask = b := by
    have hflags : tableFlags &&& frameMask = 0 := by decide
    rw [or_and_distrib,hframe,hflags]
    exact or_zero
  rw [hsome,hentry,tableFlags_required hx,hbit,hnext]
  simp [h12]

theorem Sound.userWalk (hpath : PathOk (pathOf v)) {x : BitVec 64} (hx : tableFlags &&& x = x) (hne : x ≠ 0) :
    s.userWalk v x r [39,30,21,12] =
      if s.leafOf r v &&& x = x then s.leafOf r v &&& frameMask ||| BitVec.ofNat 64 (v % 2^12) else 0 := by
  obtain ⟨hp₁,hp₂⟩ := pathOk_parts hpath
  -- a table is missing
  have hzero : s.walk r (pathOf v) = none → 0 = if s.leafOf r v &&& x = x then
      s.leafOf r v &&& frameMask ||| BitVec.ofNat 64 (v % 2^12) else 0 := by
    intro hw
    rw [leafOf_none hw,if_neg (zero_and_ne hne)]
  have hshort : ∀ p q, p ++ q = pathOf v → s.walk r p = none → s.walk r (pathOf v) = none := by
    intro p q hpq hw
    rw [← hpq]
    show Radix.walk entryTable s.tables r (p ++ q) = none
    rw [Radix.walk_append,show Radix.walk entryTable s.tables r p = none from hw]
    rfl
  rw [h.userWalk_step hr hp₁ (a := r) rfl hx hne rfl (by decide)]
  cases hw₁ : s.walk r ([] ++ [pml4Index v]) with
  | none => exact hzero (hshort _ [pdptIndex v,pdIndex v] rfl hw₁)
  | some pdpt =>
  simp only [elim_some]
  rw [h.userWalk_step hr hp₂ hw₁ hx hne rfl (by decide)]
  cases hw₂ : s.walk r ([pml4Index v] ++ [pdptIndex v]) with
  | none => exact hzero (hshort _ [pdIndex v] rfl hw₂)
  | some pd =>
  simp only [elim_some]
  rw [h.userWalk_step (p := [pml4Index v] ++ [pdptIndex v]) hr hpath hw₂ hx hne rfl (by decide)]
  cases hw₃ : s.walk r ([pml4Index v] ++ [pdptIndex v] ++ [pdIndex v]) with
  | none => exact hzero hw₃
  | some pt =>
    have hmask : frameMask &&& ~~~(BitVec.ofNat 64 (2^12 - 1)) = frameMask := by decide
    rw [leafOf_some (show s.walk r (pathOf v) = some pt from hw₃)]
    simp only [elim_some,Paging.userWalk,decide_true,Bool.true_or,if_true,ne_eq,ite_not]
    rw [BitVec.and_assoc _ frameMask,hmask]
    rfl

end

def userFlags (write : Bool) : BitVec 64 := pagePresent ||| pageUser ||| if write then pageWritable else 0

theorem Sound.getUserPhys (h : s.Sound roots) (hr : roots r) (hv : amd64.userRange v 1 = true)
    (write : Bool) :
    s.getUserPhys r v write = if s.leafOf r (pageOf v) &&& userFlags write = userFlags write then
      s.leafOf r (pageOf v) &&& frameMask ||| BitVec.ofNat 64 (v % 2^12) else 0 := by
  have hx : ∀ write : Bool, (5 ||| if write then 2 else 0 : BitVec 64) = userFlags write ∧
      tableFlags &&& userFlags write = userFlags write ∧ userFlags write ≠ 0 := by decide
  obtain ⟨hx₁,hx₂,hx₃⟩ := hx write
  unfold Paging.getUserPhys
  rw [if_neg (by simp [hv]),(h.aligned r hr).1,hx₁,leafOf_pageOf]
  exact h.userWalk hr (pathOk_user hv) hx₂ hx₃

end Paging
end Rucux.Memory
