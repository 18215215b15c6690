import Rucux.Lib.Blit
import Rucux.Process.Elf
import Rucux.Process.UserMemory

/-!
Loading an executable: each page of a segment gets a frame with the bytes of the file that belong to
it, and zeros around them.
-/

namespace Rucux.Process
open Lib Memory List Phdr

def machineAmd64 : Nat := 62

namespace Phdr

def leadIn (p : Phdr) : Nat := p.vaddr - p.pageBegin

def pagesNeeded (p : Phdr) : Nat := (p.leadIn + p.memsz + pageSize - 1) % 2^64 / pageSize

def pageAddress (p : Phdr) (k : Nat) : Nat := p.pageBegin + k*pageSize

def pageFlags (p : Phdr) : PageFlags := ⟨true,p.writable,true,!p.executable⟩

end Phdr

def slice (image : List UInt8) (offset n : Nat) : Option (List UInt8) :=
  if offset + n ≤ image.length then some ((image.drop offset).take n) else none

def pageImage (image : List UInt8) (p : Phdr) (k : Nat) : Option (List UInt8) :=
  let zeros := replicate pageSize 0
  let pageStart := if k = 0 then 0 else k*pageSize - p.leadIn
  let frameOff := if k = 0 then p.leadIn else 0
  if pageStart < p.filesz then
    let avail := p.filesz - pageStart
    let room := pageSize - frameOff
    let chunk := if avail < room then avail else room
    (slice image (p.offset + pageStart) chunk).map (blit zeros frameOff)
  else some zeros

def loadPages (image : List UInt8) (root : BitVec 64) (p : Phdr) :
    Nat → Nat → UserMemory → Option (Bool × UserMemory)
  | 0,_,m => some (true,m)
  | left+1,k,m => do
    let (ok,m) ← m.placePage root (p.pageAddress k) p.pageFlags (pageImage image p k)
    if ok then loadPages image root p left (k+1) m else some (false,m)

def loadSegments (image : List UInt8) (h : Ehdr) (root : BitVec 64) :
    Nat → Nat → UserMemory → Option (Bool × UserMemory)
  | 0,_,m => some (true,m)
  | left+1,i,m => do
    let p ← readPhdr image (h.phoff + i*phdrSize)
    if p.loads then
      let (ok,m) ← loadPages image root p p.pagesNeeded 0 m
      if ok then loadSegments image h root left (i+1) m else some (false,m)
    else loadSegments image h root left (i+1) m

def load (m : UserMemory) (pml4 : BitVec 64) (image : List UInt8) : Option (Nat × UserMemory) :=
  if pml4 = 0 then some (0,m)
  else do
    let valid ← validate image machineAmd64
    if !valid then some (0,m)
    else
      let h ← readEhdr image
      let (ok,m) ← loadSegments image h pml4 h.phnum 0 m
      some (if ok then h.entry else 0,m)

def segments (image : List UInt8) (h : Ehdr) : List Phdr :=
  ((range h.phnum).map (phdrAt image h)).filter loads

def Phdr.pages (p : Phdr) : List Nat := (range p.pagesNeeded).map p.pageAddress

def segmentPages (image : List UInt8) (h : Ehdr) : List Nat := (segments image h).flatMap pages

def Phdr.byteAt (p : Phdr) (image : List UInt8) (a : Nat) : UInt8 :=
  if p.vaddr ≤ a ∧ a < p.vaddr + p.filesz then image.getD (p.offset + (a - p.vaddr)) 0 else 0

def UserMemory.userByte (m : UserMemory) (root : BitVec 64) (a : Nat) : Option UInt8 :=
  (m.frames (m.paging.getPhys root (pageOf a)))[a % pageSize]?

structure Loaded (image : List UInt8) (h : Ehdr) (root : BitVec 64) (m : UserMemory) : Prop where
  user : ∀ v ∈ segmentPages image h, UserPage v
  once : (segmentPages image h).Nodup
  mapped : ∀ v, UserPage v → (m.paging.leafOf root v &&& pagePresent ≠ 0 ↔ v ∈ segmentPages image h)
  apart : ∀ v ∈ segmentPages image h, ∀ v' ∈ segmentPages image h,
    m.paging.getPhys root v = m.paging.getPhys root v' → v = v'
  flags : ∀ p ∈ segments image h, ∀ v ∈ p.pages, m.paging.leafOf root v &&& permissionMask = p.pageFlags.bits
  exclusive : ∀ p ∈ segments image h, ¬ (p.pageFlags.writable = true ∧ p.pageFlags.noExecute = false)
  bytes : ∀ p ∈ segments image h, ∀ a, pageOf a ∈ p.pages → m.userByte root a = some (p.byteAt image a)
  entry : ∃ p ∈ segments image h, p.pageFlags.noExecute = false ∧ p.vaddr ≤ h.entry ∧ h.entry < p.vaddr + p.filesz

variable {image : List UInt8} {h : Ehdr} {p q : Phdr} {r : BitVec 64} {m : UserMemory} {start : Paging}
  {placed : List Placed} {lost back : List (BitVec 64)} {v i j k n left : Nat} {size : Nat}

theorem Phdr.leadIn_eq (p : Phdr) : p.leadIn = p.vaddr % 4096 := by
  unfold leadIn pageBegin pageSize
  omega

theorem Phdr.Good.pageEnd (hg : p.Good size) : p.pageEnd = p.pageBegin + p.pagesNeeded*4096 := by
  have hhigh := hg.high
  simp only [Phdr.pageEnd,Phdr.pagesNeeded,Phdr.leadIn_eq,Phdr.pageBegin,pageSize]
  omega

theorem Phdr.Good.userPage (hg : p.Good size) (hk : k < p.pagesNeeded) : UserPage (p.pageAddress k) := by
  have hhigh := hg.high
  have hlow := hg.low
  rw [userPage_iff]
  simp only [pagesNeeded,leadIn_eq,pageAddress,pageBegin,pageSize] at hk ⊢
  omega

theorem Phdr.pageAddress_inj (p : Phdr) : Function.Injective p.pageAddress := by
  intro j k hjk
  simp only [pageAddress,pageSize] at hjk
  omega

theorem Phdr.mem_pages : v ∈ p.pages ↔ ∃ k, k < p.pagesNeeded ∧ p.pageAddress k = v := by
  simp [pages]

theorem Phdr.pages_nodup (p : Phdr) : p.pages.Nodup := nodup_range.map p.pageAddress_inj

theorem Phdr.Apart.pages (ha : p.Apart q) (hp : p.Good size) (hq : q.Good size) (hj : j < p.pagesNeeded)
    (hk : k < q.pagesNeeded) : p.pageAddress j ≠ q.pageAddress k := by
  unfold Phdr.Apart at ha
  rw [hp.pageEnd,hq.pageEnd] at ha
  simp only [pageAddress,pageSize]
  omega

theorem pageImage_spec (hg : p.Good image.length) (k : Nat) : ∃ frame, pageImage image p k = some frame ∧
      ∀ j, j < 4096 → frame[j]? = some (p.byteAt image (p.pageAddress k + j)) := by
  have hbytes := hg.bytes
  have hlead := p.leadIn_eq
  have hbegin : p.vaddr = p.pageBegin + p.leadIn := by
    unfold pageBegin pageSize at *
    omega
  have hpos : (if k = 0 then 0 else k*pageSize - p.leadIn) + p.vaddr =
      p.pageAddress k + if k = 0 then p.leadIn else 0 := by
    unfold pageAddress pageSize
    split <;> omega
  have hoff : (if k = 0 then p.leadIn else 0) < 4096 := by split <;> omega
  -- bytes of the frame before the segment are only there on its first page
  have hfirst : ∀ j, j < (if k = 0 then p.leadIn else 0) → p.pageAddress k + j < p.vaddr := by
    intro j hj
    unfold pageAddress pageSize
    split at hj <;> omega
  have hsize : pageSize = 4096 := rfl
  have hzeros : ∀ j, j < 4096 → (replicate pageSize (0 : UInt8))[j]? = some 0 := by
    intro j hj
    rw [getElem?_replicate,if_pos (by omega)]
  unfold pageImage
  generalize (if k = 0 then 0 else k*pageSize - p.leadIn) = pageStart at hpos
  generalize (if k = 0 then p.leadIn else 0) = frameOff at hpos hoff hfirst
  dsimp only
  split
  · generalize hchunk : (if p.filesz - pageStart < pageSize - frameOff then p.filesz - pageStart
      else pageSize - frameOff) = chunk
    have hle : chunk ≤ p.filesz - pageStart ∧ chunk ≤ 4096 - frameOff ∧
        (chunk = p.filesz - pageStart ∨ chunk = 4096 - frameOff) := by
      rw [← hchunk]
      split <;> omega
    rw [slice,if_pos (by omega),Option.map_some]
    refine ⟨_,rfl,fun j hj => ?_⟩
    have hlen : ((image.drop (p.offset + pageStart)).take chunk).length = chunk := by
      rw [length_take,length_drop]
      omega
    rw [getElem?_blit (by rw [length_replicate]; omega),hlen,hzeros j hj]
    unfold byteAt
    by_cases hj₁ : j < frameOff
    · have hbefore := hfirst j hj₁
      rw [if_pos hj₁,if_neg (by omega)]
    rw [if_neg hj₁]
    by_cases hj₂ : j < frameOff + chunk
    · rw [if_pos hj₂,if_pos (by omega),getElem?_take_of_lt (by omega),getElem?_drop,
        show p.offset + pageStart + (j - frameOff) = p.offset + (p.pageAddress k + j - p.vaddr) by omega,
        getD_eq_getElem?_getD,getElem?_eq_getElem (by omega)]
      rfl
    · rw [if_neg hj₂,if_neg (by omega)]
  refine ⟨_,rfl,fun j hj => ?_⟩
  rw [hzeros j hj,byteAt]
  by_cases hj₁ : j < frameOff
  · have hbefore := hfirst j hj₁
    rw [if_neg (by omega)]
  · rw [if_neg (by omega)]

structure Placed.From (x : Placed) (image : List UInt8) (p : Phdr) (k : Nat) : Prop where
  virt : x.virt = p.pageAddress k
  flags : x.flags = p.pageFlags
  content : pageImage image p k = some x.content

theorem Populated.placePage_vacant (hm : Populated m r start placed lost back) (flags : PageFlags) (hv : UserPage v)
    (hflags : flags.present = true) (hno : v ∉ placed.map Placed.virt) (frame : List UInt8) :
    ∃ ok m', m.placePage r v flags (some frame) = some (ok,m') ∧
      (ok = true → ∃ page, Populated m' r start (⟨v,page,flags,frame⟩ :: placed) lost back) ∧
      (ok = false → ∃ back', Populated m' r start placed lost back') ∧
      ∀ k, m.paging.Ready (k+4) → ok = true ∧ m'.paging.Ready k := by
  have hne : ∀ x ∈ placed, x.virt ≠ v := fun x hx hxv => hno (hxv ▸ mem_map_of_mem hx)
  have hkeep : placed.filter (·.virt ≠ v) = placed :=
    filter_eq_self.mpr fun x hx => decide_eq_true (hne x hx)
  have hnone : placed.filter (·.virt = v) = [] :=
    filter_eq_nil_iff.mpr fun x hx => by simpa using hne x hx
  have hplace := hm.placePage hv hflags frame
  rw [hkeep,hnone] at hplace
  exact hplace

theorem loadPages_spec (hg : p.Good image.length) (left : Nat) (hleft : k + left = p.pagesNeeded)
    (hm : Populated m r start placed lost back)
    (hvacant : ∀ j, k ≤ j → j < p.pagesNeeded → p.pageAddress j ∉ placed.map Placed.virt) :
    ∃ ok m', loadPages image r p left k m = some (ok,m') ∧
      (ok = true → ∃ more, Populated m' r start (more ++ placed) lost back ∧
        (∀ x ∈ more, ∃ j, j < p.pagesNeeded ∧ x.From image p j) ∧
        ∀ j, k ≤ j → j < p.pagesNeeded → p.pageAddress j ∈ more.map Placed.virt) ∧
      (ok = false → ∃ placed' back', Populated m' r start placed' lost back') ∧
      ∀ n, m.paging.Ready (n + 4*left) → ok = true ∧ m'.paging.Ready n := by
  induction left generalizing k m placed with
  | zero =>
    exact ⟨true,m,rfl,fun _ => ⟨[],hm,fun x hx => absurd hx not_mem_nil,fun j h₁ h₂ => absurd h₁ (by omega)⟩,
      nofun,fun n hn => ⟨rfl,hn⟩⟩
  | succ left ih =>
    obtain ⟨frame,hframe,-⟩ := pageImage_spec hg k
    obtain ⟨ok,m₁,hplace,htrue,hfalse,hready⟩ := hm.placePage_vacant p.pageFlags (hg.userPage (k := k) (by omega)) rfl
      (hvacant k (Nat.le_refl k) (by omega)) frame
    rw [loadPages,hframe,hplace]
    cases ok with
    | false =>
      obtain ⟨back',hback⟩ := hfalse rfl
      exact ⟨false,m₁,rfl,nofun,fun _ => ⟨_,_,hback⟩,
        fun n hn => absurd (hready (n + 4*left) hn).1 (by simp)⟩
    | true =>
      obtain ⟨page,hm₁⟩ := htrue rfl
      obtain ⟨ok,m₂,hload,htrue₂,hfalse₂,hready₂⟩ := ih (k := k+1) (by omega) hm₁ (by
        intro j h₁ h₂ hin
        rcases mem_cons.mp hin with heq | hin
        · have := p.pageAddress_inj heq
          omega
        · exact hvacant j (by omega) h₂ hin)
      refine ⟨ok,m₂,hload,fun hok => ?_,hfalse₂,fun n hn => hready₂ n (hready (n + 4*left) hn).2⟩
      obtain ⟨more,hm₂,hfrom,hall⟩ := htrue₂ hok
      refine ⟨more ++ [⟨p.pageAddress k,page,p.pageFlags,frame⟩],by rw [append_assoc]; exact hm₂,fun x hx => ?_,
        fun j h₁ h₂ => ?_⟩
      · rcases mem_append.mp hx with hx | hx
        · exact hfrom x hx
        obtain rfl := mem_singleton.mp hx
        exact ⟨k,by omega,rfl,rfl,hframe⟩
      rw [map_append,mem_append]
      rcases Nat.eq_or_lt_of_le h₁ with rfl | hlt
      · exact .inr (by simp)
      · exact .inl (hall j hlt h₂)

section
variable (ha : Accepted image h) (hi : i < h.phnum) (hl : (phdrAt image h i).loads = true)
include ha hi hl

theorem Accepted.good : (phdrAt image h i).Good image.length :=
  (ha.checked i (Nat.zero_le i) hi hl).1

theorem Accepted.pages_ne (hij : j < i) (hl' : (phdrAt image h j).loads = true)
    (hk : k < (phdrAt image h j).pagesNeeded) (hn : n < (phdrAt image h i).pagesNeeded) :
    (phdrAt image h j).pageAddress k ≠ (phdrAt image h i).pageAddress n :=
  ((ha.checked i (Nat.zero_le i) hi hl).2 j hij hl').pages (ha.good (by omega) hl') (ha.good hi hl) hk hn

end

structure LoadedBefore (image : List UInt8) (h : Ehdr) (i : Nat) (placed : List Placed) : Prop where
  source : ∀ x ∈ placed, ∃ j, j < i ∧ (phdrAt image h j).loads = true ∧
    ∃ k, k < (phdrAt image h j).pagesNeeded ∧ x.From image (phdrAt image h j) k
  all : ∀ j, j < i → (phdrAt image h j).loads = true → ∀ k, k < (phdrAt image h j).pagesNeeded →
    (phdrAt image h j).pageAddress k ∈ placed.map Placed.virt

def pageCount (image : List UInt8) (h : Ehdr) : Nat → Nat → Nat
  | 0,_ => 0
  | left+1,i => (if (phdrAt image h i).loads then (phdrAt image h i).pagesNeeded else 0) + pageCount image h left (i+1)

theorem loadSegments_spec (ha : Accepted image h) (left : Nat) (hleft : i + left = h.phnum)
    (hm : Populated m r start placed lost back) (hb : LoadedBefore image h i placed) :
    ∃ ok m', loadSegments image h r left i m = some (ok,m') ∧
      (ok = true → ∃ placed', Populated m' r start placed' lost back ∧ LoadedBefore image h h.phnum placed') ∧
      (ok = false → ∃ placed' back', Populated m' r start placed' lost back') ∧
      ∀ n, m.paging.Ready (n + 4*pageCount image h left i) → ok = true ∧ m'.paging.Ready n := by
  induction left generalizing i m placed with
  | zero =>
    obtain rfl : i = h.phnum := by omega
    exact ⟨true,m,rfl,fun _ => ⟨placed,hm,hb⟩,nofun,fun n hn => ⟨rfl,hn⟩⟩
  | succ left ih =>
    rw [loadSegments,readPhdr_phdrAt ha.fits (by omega)]
    simp only [Option.bind_eq_bind,Option.bind_some]
    cases hl : (phdrAt image h i).loads with
    | false =>
      have hskip : LoadedBefore image h (i+1) placed := by
        refine ⟨fun x hx => ?_,fun j hj hlj => ?_⟩
        · obtain ⟨j,hj,hrest⟩ := hb.source x hx
          exact ⟨j,by omega,hrest⟩
        rcases Nat.eq_or_lt_of_le (Nat.lt_succ_iff.mp hj) with rfl | hlt
        · rw [hl] at hlj
          cases hlj
        · exact hb.all j hlt hlj
      obtain ⟨ok,m',hload,htrue,hfalse,hready⟩ := ih (i := i+1) (by omega) hm hskip
      refine ⟨ok,m',hload,htrue,hfalse,fun n hn => hready n ?_⟩
      simpa [pageCount,hl] using hn
    | true =>
      have hg := ha.good (i := i) (by omega) hl
      have hvacant : ∀ k, 0 ≤ k → k < (phdrAt image h i).pagesNeeded →
          (phdrAt image h i).pageAddress k ∉ placed.map Placed.virt := by
        intro k _ hk hin
        obtain ⟨x,hx,hxv⟩ := mem_map.mp hin
        obtain ⟨j,hj,hlj,k',hk',hfrom⟩ := hb.source x hx
        exact ha.pages_ne (by omega) hl hj hlj hk' hk (hfrom.virt.symm.trans hxv)
      obtain ⟨ok,m₁,hpages,htrue,hfalse,hready⟩ := loadPages_spec hg _ (Nat.zero_add _) hm hvacant
      rw [hpages]
      have hcount : pageCount image h (left+1) i = (phdrAt image h i).pagesNeeded + pageCount image h left (i+1) := by
        simp [pageCount,hl]
      have hsplit : ∀ n, m.paging.Ready (n + 4*pageCount image h (left+1) i) →
          m.paging.Ready (n + 4*pageCount image h left (i+1) + 4*(phdrAt image h i).pagesNeeded) := by
        intro n hn j hj
        exact hn j (by omega)
      cases ok with
      | false =>
        exact ⟨false,m₁,rfl,nofun,fun _ => hfalse rfl,
          fun n hn => absurd (hready _ (hsplit n hn)).1 (by simp)⟩
      | true =>
        obtain ⟨more,hm₁,hfrom,hall⟩ := htrue rfl
        have hnext : LoadedBefore image h (i+1) (more ++ placed) := by
          refine ⟨fun x hx => ?_,fun j hj hlj k hk => ?_⟩
          · rcases mem_append.mp hx with hx | hx
            · obtain ⟨k,hk,hx⟩ := hfrom x hx
              exact ⟨i,by omega,hl,k,hk,hx⟩
            · obtain ⟨j,hj,hrest⟩ := hb.source x hx
              exact ⟨j,by omega,hrest⟩
          rw [map_append,mem_append]
          rcases Nat.eq_or_lt_of_le (Nat.lt_succ_iff.mp hj) with rfl | hlt
          · exact .inl (hall k (Nat.zero_le k) hk)
          · exact .inr (hb.all j hlt hlj k hk)
        obtain ⟨ok,m₂,hload,htrue₂,hfalse₂,hready₂⟩ := ih (i := i+1) (by omega) hm₁ hnext
        exact ⟨ok,m₂,hload,htrue₂,hfalse₂,fun n hn => hready₂ n (hready _ (hsplit n hn)).2⟩

theorem mem_segments : p ∈ segments image h ↔ ∃ i, i < h.phnum ∧
    (phdrAt image h i).loads = true ∧ phdrAt image h i = p := by
  simp only [segments,mem_filter,mem_map,mem_range]
  constructor
  · rintro ⟨⟨i,hi,rfl⟩,hl⟩
    exact ⟨i,hi,hl,rfl⟩
  · rintro ⟨i,hi,hl,rfl⟩
    exact ⟨⟨i,hi,rfl⟩,hl⟩

theorem mem_segmentPages : v ∈ segmentPages image h ↔ ∃ i, i < h.phnum ∧ (phdrAt image h i).loads = true ∧
    ∃ k, k < (phdrAt image h i).pagesNeeded ∧ (phdrAt image h i).pageAddress k = v := by
  simp only [segmentPages,mem_flatMap,mem_segments,mem_pages]
  constructor
  · rintro ⟨p,⟨i,hi,hl,rfl⟩,hk⟩
    exact ⟨i,hi,hl,hk⟩
  · rintro ⟨i,hi,hl,hk⟩
    exact ⟨_,⟨i,hi,hl,rfl⟩,hk⟩

theorem Accepted.segmentPages_nodup (ha : Accepted image h) : (segmentPages image h).Nodup := by
  have hpairs : (range h.phnum).Pairwise fun i j => (phdrAt image h i).loads = true → (phdrAt image h j).loads = true →
      ∀ v ∈ (phdrAt image h i).pages, ∀ v' ∈ (phdrAt image h j).pages, v ≠ v' := by
    refine Pairwise.imp_of_mem ?_ pairwise_lt_range
    intro i j hi hj hij hli hlj v hv v' hv'
    rw [mem_range] at hi hj
    obtain ⟨k,hk,rfl⟩ := mem_pages.mp hv
    obtain ⟨k',hk',rfl⟩ := mem_pages.mp hv'
    exact ha.pages_ne hj hlj hij hli hk hk'
  rw [segmentPages,nodup_flatMap]
  refine ⟨fun p _ => p.pages_nodup,?_⟩
  rw [segments,pairwise_filter,pairwise_map]
  refine hpairs.imp ?_
  intro i j hij hli hlj v hv hv'
  exact hij hli hlj v hv v hv' rfl

theorem pageCount_eq (image : List UInt8) (h : Ehdr) (left i : Nat) : pageCount image h left i =
    ((((range' i left).map (phdrAt image h)).filter loads).flatMap pages).length := by
  induction left generalizing i with
  | zero => rfl
  | succ left ih =>
    rw [pageCount,ih,range'_succ,map_cons]
    cases hl : (phdrAt image h i).loads with
    | false => simp [hl]
    | true => simp [hl,pages]

theorem Populated.loaded (ha : Accepted image h) (hm : Populated m r start placed lost back)
    (hb : LoadedBefore image h h.phnum placed) : Loaded image h r m := by
  have hpages : ∀ v, v ∈ segmentPages image h ↔ v ∈ placed.map Placed.virt := by
    intro v
    rw [mem_segmentPages]
    constructor
    · rintro ⟨i,hi,hl,k,hk,rfl⟩
      exact hb.all i hi hl k hk
    intro hv
    obtain ⟨x,hx,rfl⟩ := mem_map.mp hv
    obtain ⟨i,hi,hl,k,hk,hfrom⟩ := hb.source x hx
    exact ⟨i,hi,hl,k,hk,hfrom.virt.symm⟩
  have huser : ∀ v ∈ segmentPages image h, UserPage v := fun v hv => by
    obtain ⟨x,hx,rfl⟩ := mem_map.mp ((hpages v).mp hv)
    exact hm.user x hx
  -- the placement of page `k` of a segment
  have hfind : ∀ i, i < h.phnum → (phdrAt image h i).loads = true → ∀ k, k < (phdrAt image h i).pagesNeeded →
      ∃ x ∈ placed, x.From image (phdrAt image h i) k := by
    intro i hi hl k hk
    obtain ⟨x,hx,hxv⟩ := mem_map.mp (hb.all i hi hl k hk)
    obtain ⟨j,hj,hlj,k',hk',hfrom⟩ := hb.source x hx
    have hsame := hfrom.virt.symm.trans hxv
    rcases Nat.lt_trichotomy i j with hlt | rfl | hlt
    · exact absurd hsame.symm (ha.pages_ne hj hlj hlt hl hk hk')
    · obtain rfl := (phdrAt image h i).pageAddress_inj hsame
      exact ⟨x,hx,hfrom⟩
    · exact absurd hsame (ha.pages_ne hi hl hlt hlj hk' hk)
  refine ⟨huser,ha.segmentPages_nodup,fun v hv => (hm.present_iff hv).trans (hpages v).symm,
    fun v hv v' hv' hphys => ?_,fun p hp v hv => ?_,fun p hp => ?_,fun p hp a ha' => ?_,?_⟩
  · obtain ⟨x,hx,rfl⟩ := mem_map.mp ((hpages v).mp hv)
    rw [hm.getPhys hx] at hphys
    exact (hm.getPhys_eq hx (huser v' hv') hphys.symm).symm
  · obtain ⟨i,hi,hl,rfl⟩ := mem_segments.mp hp
    obtain ⟨k,hk,rfl⟩ := mem_pages.mp hv
    obtain ⟨x,hx,hfrom⟩ := hfind i hi hl k hk
    rw [← hfrom.virt,hm.leaf x hx,(entry_parts (hm.frame x hx).1 x.flags).2,hfrom.flags]
  · obtain ⟨i,hi,hl,rfl⟩ := mem_segments.mp hp
    have hexclusive := (ha.good hi hl).exclusive
    simpa [pageFlags] using hexclusive
  · obtain ⟨i,hi,hl,rfl⟩ := mem_segments.mp hp
    obtain ⟨k,hk,hkv⟩ := mem_pages.mp ha'
    obtain ⟨x,hx,hfrom⟩ := hfind i hi hl k hk
    obtain ⟨frame,hframe,hbyte⟩ := pageImage_spec (ha.good hi hl) k
    rw [hfrom.content] at hframe
    obtain rfl := Option.some.inj hframe
    have hadd : (phdrAt image h i).pageAddress k + a % 4096 = a := by
      rw [hkv]
      unfold pageOf
      omega
    rw [UserMemory.userByte,← hkv,← hfrom.virt,hm.getPhys hx,hm.content x hx]
    have := hbyte (a % 4096) (Nat.mod_lt _ (by decide))
    rw [hadd] at this
    exact this
  obtain ⟨i,hi,hl,henters⟩ := ha.entered
  simp only [enters,Bool.and_eq_true,decide_eq_true_eq] at henters
  exact ⟨_,mem_segments.mpr ⟨i,hi,hl,rfl⟩,by simp [pageFlags,henters.1.1],henters.1.2,by omega⟩

theorem Accepted.entry_ne (ha : Accepted image h) : h.entry ≠ 0 := by
  obtain ⟨i,hi,hl,henters⟩ := ha.entered
  simp only [enters,Bool.and_eq_true,decide_eq_true_eq] at henters
  have hlow := (ha.good hi hl).low
  omega

theorem populated_created {s s' : Paging} (hf : s.Fresh fun _ => False) (hc : s.createAddressSpace = (some r,s'))
    (frames : BitVec 64 → List UInt8) : Populated ⟨s',frames⟩ r s [] [] [] := by
  have hsound : s.Sound fun _ => False :=
    ⟨⟨fun _ _ hp => pathOk_init hp,fun r r' p q a hr => hr.elim⟩,fun r p a i hr => hr.elim,fun r hr => hr.elim,
      fun r hr => hr.elim⟩
  rcases s.allocPage_cases with ⟨page,rest,hs,halloc⟩ | ⟨rest,-,-,-,halloc⟩
  · obtain ⟨s'',hcreate,hspec⟩ := hsound.create hf hs
    rw [hc] at hcreate
    obtain ⟨rfl,rfl⟩ : r = page ∧ s' = s'' := by simpa using hcreate
    have hempty : s'.tablesOf r = [] := by
      refine eq_nil_iff_forall_not_mem.mpr fun a ha => ?_
      obtain ⟨q,hq,hne,hw⟩ := Paging.mem_tablesOf.mp ha
      exact hne (hspec.empty q a hq hw).1
    have hsub : ∀ x, x = r → x = r ∨ False := fun x hx => .inl hx
    refine ⟨hspec.sound.mono hsub,⟨hspec.fresh.nodup,hspec.fresh.page,fun a ha x p hx => hspec.fresh.unused a ha x p
      (hsub x hx)⟩,hspec.freed,fun x hx => absurd hx not_mem_nil,nodup_nil,
      fun x hx => absurd hx not_mem_nil,fun v hv _ => ?_,fun x hx => absurd hx not_mem_nil,
      fun x hx => absurd hx not_mem_nil,fun x hx => absurd hx not_mem_nil,[r],hspec.taken,?_,?_⟩
    · refine Paging.leafOf_none ?_
      cases hw : s'.walk r (pathOf v) with
      | none => rfl
      | some a => exact absurd (hspec.empty _ a (pathOk_pathOf hv) hw).1 (by simp [pathOf])
    · have hscript : s'.script = rest := by
        have hscript := congrArg (fun x => x.2.script) hc
        rw [Paging.createAddressSpace,halloc] at hscript
        exact hscript.symm
      have hnodup := hf.nodup
      rw [hs] at hnodup
      rw [hscript]
      exact hnodup
    · rw [hempty]
      exact Perm.refl _
  · rw [Paging.createAddressSpace,halloc] at hc
    cases hc

theorem load_spec (hm : Populated m r start [] [] []) (image : List UInt8) :
    ∃ entry m', load m r image = some (entry,m') ∧
      (validate image machineAmd64 ≠ some true → entry = 0 ∧ m' = m) ∧
      (entry = 0 → ∃ placed back, Populated m' r start placed [] back) ∧
      ∀ h, readEhdr image = some h → (entry ≠ 0 → Accepted image h ∧ entry = h.entry ∧
          ∃ placed, Populated m' r start placed [] [] ∧ LoadedBefore image h h.phnum placed) ∧
        (validate image machineAmd64 = some true →
          ∀ n, m.paging.Ready (n + 4*(segmentPages image h).length) → entry ≠ 0 ∧ m'.paging.Ready n) := by
  have hroot := (hm.sound.aligned r rfl).2
  obtain ⟨valid,hvalid,haccepted⟩ := validate_spec image machineAmd64
  unfold load
  rw [if_neg hroot,hvalid]
  simp only [Option.bind_eq_bind,Option.bind_some]
  cases valid with
  | false =>
    exact ⟨0,m,rfl,fun _ => ⟨rfl,rfl⟩,fun _ => ⟨_,_,hm⟩,fun h _ => ⟨fun hno => absurd rfl hno,nofun⟩⟩
  | true =>
    obtain ⟨h,ha⟩ := haccepted rfl
    obtain ⟨ok,m',hload,htrue,hfalse,hready⟩ := loadSegments_spec ha h.phnum (Nat.zero_add _) hm
      ⟨fun x hx => absurd hx not_mem_nil,fun j hj => absurd hj (Nat.not_lt_zero j)⟩
    rw [ha.header]
    simp only [Bool.not_true,Bool.false_eq_true,if_false,Option.bind_some,hload]
    refine ⟨_,m',rfl,fun hno => absurd rfl hno,fun hzero => ?_,fun h' hh => ?_⟩
    · cases ok with
      | false =>
        obtain ⟨placed,back,hp⟩ := hfalse rfl
        exact ⟨placed,back,hp⟩
      | true => exact absurd hzero ha.entry_ne
    obtain rfl := Option.some.inj hh
    refine ⟨fun hne => ?_,fun _ n hn => ?_⟩
    · cases ok with
      | false => exact absurd rfl hne
      | true => exact ⟨ha,rfl,htrue rfl⟩
    have hlen : pageCount image h h.phnum 0 = (segmentPages image h).length := by
      rw [pageCount_eq,← range_eq_range']
      rfl
    rw [← hlen] at hn
    obtain ⟨rfl,hleft⟩ := hready n hn
    exact ⟨ha.entry_ne,hleft⟩

theorem load_reads (m : UserMemory) (r : BitVec 64) (image : List UInt8) : ∃ x, load m r image = some x := by
  have hplace : ∀ (m : UserMemory) v flags frame, ∃ x, m.placePage r v flags (some frame) = some x := by
    intro m v flags frame
    unfold UserMemory.placePage
    rcases m.paging.allocPage_cases with ⟨page,rest,-,halloc⟩ | ⟨rest,-,-,-,halloc⟩
    · rw [halloc]
      exact ⟨_,rfl⟩
    · rw [halloc]
      exact ⟨_,rfl⟩
  have hpages : ∀ (p : Phdr), p.Good image.length → ∀ left k m, ∃ x, loadPages image r p left k m = some x := by
    intro p hg left
    induction left with
    | zero => exact fun k m => ⟨_,rfl⟩
    | succ left ih =>
      intro k m
      obtain ⟨frame,hframe,-⟩ := pageImage_spec hg k
      obtain ⟨⟨ok,m₁⟩,hx⟩ := hplace m (p.pageAddress k) p.pageFlags frame
      rw [loadPages,hframe,hx]
      cases ok with
      | false => exact ⟨_,rfl⟩
      | true => exact ih (k+1) m₁
  obtain ⟨valid,hvalid,haccepted⟩ := validate_spec image machineAmd64
  unfold load
  split
  · exact ⟨_,rfl⟩
  rw [hvalid]
  cases valid with
  | false => exact ⟨_,rfl⟩
  | true =>
    obtain ⟨h,ha⟩ := haccepted rfl
    have hsegments : ∀ left i, i + left = h.phnum → ∀ m, ∃ x, loadSegments image h r left i m = some x := by
      intro left
      induction left with
      | zero => exact fun i _ m => ⟨_,rfl⟩
      | succ left ih =>
        intro i hi m
        rw [loadSegments,readPhdr_phdrAt ha.fits (by omega)]
        simp only [Option.bind_eq_bind,Option.bind_some]
        split
        · rename_i hl
          obtain ⟨⟨ok,m₁⟩,hx⟩ := hpages _ (ha.good (i := i) (by omega) hl) (phdrAt image h i).pagesNeeded 0 m
          rw [hx]
          cases ok with
          | false => exact ⟨_,rfl⟩
          | true => exact ih (i+1) (by omega) m₁
        · exact ih (i+1) (by omega) m
    obtain ⟨x,hx⟩ := hsegments h.phnum 0 (Nat.zero_add _) m
    simp only [Bool.not_true,Bool.false_eq_true,if_false,Option.bind_eq_bind,Option.bind_some,ha.header,hx]
    exact ⟨_,rfl⟩

/-- Nothing outside of an image is read, whatever it is. Of an accepted one, `load` returns 0 or the
entry, with the pages of the segments and no others in the new address space; it returns the entry
if there is enough memory. -/
theorem elf_loading (image : List UInt8) : (∀ machine, ∃ valid, validate image machine = some valid) ∧
    (∀ m r, ∃ out, load m r image = some out) ∧
    ∀ (s s' : Paging) (frames : BitVec 64 → List UInt8) (r : BitVec 64),
      s.Fresh (fun _ => False) → s.createAddressSpace = (some r,s') →
      ∀ entry m', load ⟨s',frames⟩ r image = some (entry,m') →
      (validate image machineAmd64 = some false → entry = 0) ∧
      (validate image machineAmd64 = some true → ∃ h, readEhdr image = some h ∧ h.entry ≠ 0 ∧
        (entry = 0 ∨ entry = h.entry ∧ Loaded image h r m') ∧
        (s'.Ready (4*(segmentPages image h).length) → entry = h.entry)) := by
  refine ⟨fun machine => ?_,fun m r => load_reads m r image,fun s s' frames r hf hc entry m' hload => ?_⟩
  · obtain ⟨valid,hvalid,-⟩ := validate_spec image machine
    exact ⟨valid,hvalid⟩
  obtain ⟨entry',m'',hload',hinvalid,-,hspec⟩ := load_spec (populated_created hf hc frames) image
  rw [hload] at hload'
  obtain ⟨rfl,rfl⟩ : entry = entry' ∧ m' = m'' := by simpa using hload'
  refine ⟨fun hno => (hinvalid (by rw [hno]; simp)).1,fun hyes => ?_⟩
  obtain ⟨valid,hvalid,haccepted⟩ := validate_spec image machineAmd64
  rw [hyes] at hvalid
  obtain ⟨h,ha⟩ := haccepted (Option.some.inj hvalid).symm
  obtain ⟨hloaded,hready⟩ := hspec h ha.header
  refine ⟨h,ha.header,ha.entry_ne,?_,fun hn => (hloaded (hready hyes 0 (by rw [Nat.zero_add]; exact hn)).1).2.1⟩
  by_cases hzero : entry = 0
  · exact .inl hzero
  obtain ⟨-,hentry,placed,hm,hb⟩ := hloaded hzero
  exact .inr ⟨hentry,hm.loaded ha hb⟩

def imageAt (vaddr : List UInt8) : List UInt8 :=
  [0x7F,0x45,0x4C,0x46,2,1,1,0,0,0,0,0,0,0,0,0,2,0,62,0,1,0,0,0] ++ vaddr ++
    [64,0,0,0,0,0,0,0] ++ [0,0,0,0,0,0,0,0,0,0,0,0] ++ [64,0,56,0,1,0] ++ [0,0,0,0,0,0] ++
  [1,0,0,0,5,0,0,0] ++ [0,0,0,0,0,0,0,0] ++ vaddr ++ [0,0,0,0,0,0,0,0] ++
    [1,0,0,0,0,0,0,0] ++ [1,0,0,0,0,0,0,0] ++ [0,0,0,0,0,0,0,0]

def ehdrAt (entry : Nat) : Ehdr := ⟨[0x7F,0x45,0x4C,0x46,2,1,1,0,0,0,0,0,0,0,0,0],2,62,1,entry,64,64,56,1⟩

def pagesLeft : List (Option (BitVec 64)) := (range 72).map fun i => some (BitVec.ofNat 64 ((i+1)*4096))

def emptyMemory : UserMemory := ⟨⟨fun _ _ => 0,0,pagesLeft,[],[]⟩,fun _ => []⟩

theorem emptyMemory_fresh : emptyMemory.paging.Fresh fun _ => False := by
  refine ⟨by decide +kernel,fun a ha => ?_,fun _ _ r p hr => hr.elim⟩
  obtain ⟨i,hi,hia⟩ := mem_map.mp ha
  obtain rfl := Option.some.inj hia
  have hall : ∀ i < 72, BitVec.ofNat 64 ((i+1)*4096) &&& frameMask = BitVec.ofNat 64 ((i+1)*4096) ∧
      BitVec.ofNat 64 ((i+1)*4096) ≠ 0 := by decide +kernel
  exact hall i (mem_range.mp hi)

theorem emptyMemory_ready : emptyMemory.paging.Ready 72 := by
  intro j hj
  exact ⟨BitVec.ofNat 64 ((j+1)*4096),by simp [emptyMemory,pagesLeft,hj]⟩

theorem elf_loading_page : let image := imageAt [0,0,0,0,0x80,0,0,0]
    ∃ r s m', emptyMemory.paging.createAddressSpace = (some r,s) ∧
      load { emptyMemory with paging := s } r image = some (0x8000000000,m') ∧
      Loaded image (ehdrAt 0x8000000000) r m' := by
  intro image
  have hh : readEhdr image = some (ehdrAt 0x8000000000) := by decide +kernel
  have hpages : (segmentPages image (ehdrAt 0x8000000000)).length = 1 := by decide +kernel
  have hvalid : validate image machineAmd64 = some true := by decide +kernel
  obtain ⟨-,hload,hspec⟩ := elf_loading image
  have hc : emptyMemory.paging.createAddressSpace = (some 0x1000,emptyMemory.paging.createAddressSpace.2) := rfl
  obtain ⟨⟨entry,m'⟩,hout⟩ := hload { emptyMemory with paging := emptyMemory.paging.createAddressSpace.2 } 0x1000
  obtain ⟨h,hh',hne,hloaded,hready⟩ := (hspec _ _ _ _ emptyMemory_fresh hc entry m' hout).2 hvalid
  obtain rfl := Option.some.inj (hh.symm.trans hh')
  have hentry := hready fun j hj => by
    obtain ⟨a,ha⟩ := emptyMemory_ready (j+1) (by omega)
    exact ⟨a,ha⟩
  obtain rfl : entry = 0x8000000000 := hentry
  exact ⟨_,_,m',hc,hout,(hloaded.resolve_left (by decide)).2⟩

end Rucux.Process
