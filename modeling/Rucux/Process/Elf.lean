import Rucux.Memory.Mmap

/-!
The check of an executable before it is loaded. An image is a list of bytes, and a read outside of
it has no result.
-/

namespace Rucux.Process
open Memory List Option

def readLe (image : List UInt8) (offset : Nat) : Nat → Option Nat
  | 0 => some 0
  | n+1 => do
    let b ← image[offset]?
    let rest ← readLe image (offset+1) n
    some (b.toNat + 256*rest)

/-- `elf64_ehdr`, without the fields that nothing reads -/
structure Ehdr where
  ident : List Nat
  type : Nat
  machine : Nat
  version : Nat
  entry : Nat
  phoff : Nat
  ehsize : Nat
  phentsize : Nat
  phnum : Nat
  deriving DecidableEq,Inhabited

def ehdrSize : Nat := 64

def readEhdr (image : List UInt8) : Option Ehdr := do
  let ident ← (range 16).mapM fun i => readLe image i 1
  let type ← readLe image 16 2
  let machine ← readLe image 18 2
  let version ← readLe image 20 4
  let entry ← readLe image 24 8
  let phoff ← readLe image 32 8
  let ehsize ← readLe image 52 2
  let phentsize ← readLe image 54 2
  let phnum ← readLe image 56 2
  some ⟨ident,type,machine,version,entry,phoff,ehsize,phentsize,phnum⟩

/-- `elf64_phdr`, without `p_paddr` -/
structure Phdr where
  type : Nat
  flags : Nat
  offset : Nat
  vaddr : Nat
  filesz : Nat
  memsz : Nat
  align : Nat
  deriving DecidableEq,Inhabited

def phdrSize : Nat := 56

def ptLoad : Nat := 1

def readPhdr (image : List UInt8) (at_ : Nat) : Option Phdr := do
  let type ← readLe image at_ 4
  let flags ← readLe image (at_ + 4) 4
  let offset ← readLe image (at_ + 8) 8
  let vaddr ← readLe image (at_ + 16) 8
  let filesz ← readLe image (at_ + 32) 8
  let memsz ← readLe image (at_ + 40) 8
  let align ← readLe image (at_ + 48) 8
  some ⟨type,flags,offset,vaddr,filesz,memsz,align⟩

namespace Phdr

def loads (p : Phdr) : Bool := p.type = ptLoad && p.memsz ≠ 0

def writable (p : Phdr) : Bool := p.flags / 2 % 2 = 1
def executable (p : Phdr) : Bool := p.flags % 2 = 1

def pageBegin (p : Phdr) : Nat := p.vaddr - p.vaddr % pageSize

def pageEnd (p : Phdr) : Nat :=
  let stop := (p.vaddr + p.memsz + 4095) % 2^64
  stop - stop % pageSize

def outside (p : Phdr) (size : Nat) : Bool :=
  p.filesz > p.memsz || p.offset > size || p.filesz > size - p.offset ||
    p.vaddr < UserLayout.amd64.userBegin || p.vaddr ≥ UserLayout.amd64.userEnd ||
    p.memsz > UserLayout.amd64.userEnd - p.vaddr || p.flags ≥ 8 || p.flags % 4 = 3

def misaligned (p : Phdr) : Bool :=
  p.align > 1 && (p.align &&& (p.align - 1) ≠ 0 || p.vaddr % p.align ≠ p.offset % p.align)

/-- An address is in the bytes of an executable segment that come from the file. -/
def enters (p : Phdr) (entry : Nat) : Bool :=
  p.executable && entry ≥ p.vaddr && entry - p.vaddr < p.filesz

end Phdr

/-- The inner loop: whether one of the segments before has a page of this one. -/
def overlapsBefore (image : List UInt8) (h : Ehdr) (p : Phdr) : Nat → Nat → Option Bool
  | 0,_ => some false
  | left+1,j => do
    let prev ← readPhdr image (h.phoff + j*phdrSize)
    if !prev.loads then overlapsBefore image h p left (j+1)
    else if p.pageBegin < prev.pageEnd && prev.pageBegin < p.pageEnd then some true
    else overlapsBefore image h p left (j+1)

def validateFrom (image : List UInt8) (h : Ehdr) : Nat → Nat → Bool → Option Bool
  | 0,_,executableEntry => some executableEntry
  | left+1,i,executableEntry => do
    let p ← readPhdr image (h.phoff + i*phdrSize)
    if p.type ≠ ptLoad then validateFrom image h left (i+1) executableEntry
    else if p.memsz = 0 then
      if p.filesz ≠ 0 then some false else validateFrom image h left (i+1) executableEntry
    else if p.outside image.length then some false
    else if p.misaligned then some false
    else
      let overlap ← overlapsBefore image h p i 0
      if overlap then some false
      else validateFrom image h left (i+1) (executableEntry || p.enters h.entry)

def validate (image : List UInt8) (machine : Nat) : Option Bool :=
  if image.length < ehdrSize then some false
  else do
    let h ← readEhdr image
    if h.ident.take 7 ≠ [0x7F,0x45,0x4C,0x46,2,1,1] || h.version ≠ 1 || h.type ≠ 2 || h.machine ≠ machine ||
        h.ehsize ≠ ehdrSize || h.phentsize ≠ phdrSize || h.phnum = 0 || h.phnum > 128 || h.phoff > image.length ||
        h.phnum > (image.length - h.phoff) / phdrSize then some false
    else validateFrom image h h.phnum 0 false

variable {image : List UInt8} {h : Ehdr} {p : Phdr} {n i k at_ left machine : Nat} {b : Bool}

theorem readLe_some (at_ n : Nat) (hn : at_ + n ≤ image.length) : ∃ x, readLe image at_ n = some x := by
  induction n generalizing at_ with
  | zero => exact ⟨0,rfl⟩
  | succ n ih =>
    obtain ⟨x,hx⟩ := ih (at_+1) (by omega)
    have hb : image[at_]? = some (image.get ⟨at_,by omega⟩) := getElem?_eq_getElem (by omega)
    exact ⟨_,by rw [readLe,hb,hx]; rfl⟩

theorem mapM_some {α β : Type} {f : α → Option β} {xs : List α} (hf : ∀ x ∈ xs, ∃ y, f x = some y) :
    ∃ ys, xs.mapM f = some ys := by
  induction xs with
  | nil => exact ⟨[],rfl⟩
  | cons x xs ih =>
    obtain ⟨y,hy⟩ := hf x mem_cons_self
    obtain ⟨ys,hys⟩ := ih fun z hz => hf z (mem_cons_of_mem _ hz)
    exact ⟨y :: ys,by rw [mapM_cons,hy,hys]; rfl⟩

theorem readEhdr_some (hn : ehdrSize ≤ image.length) : ∃ h, readEhdr image = some h := by
  unfold ehdrSize at hn
  have hread : ∀ at_ n, at_ + n ≤ 64 → ∃ x, readLe image at_ n = some x := fun at_ n hle => readLe_some at_ n (by omega)
  obtain ⟨ident,h₀⟩ : ∃ ys, (range 16).mapM (fun i => readLe image i 1) = some ys := mapM_some
    fun i hi => hread i 1 (by rw [mem_range] at hi; omega)
  obtain ⟨_,h₁⟩ := hread 16 2 (by decide)
  obtain ⟨_,h₂⟩ := hread 18 2 (by decide)
  obtain ⟨_,h₃⟩ := hread 20 4 (by decide)
  obtain ⟨_,h₄⟩ := hread 24 8 (by decide)
  obtain ⟨_,h₅⟩ := hread 32 8 (by decide)
  obtain ⟨_,h₆⟩ := hread 52 2 (by decide)
  obtain ⟨_,h₇⟩ := hread 54 2 (by decide)
  obtain ⟨_,h₈⟩ := hread 56 2 (by decide)
  exact ⟨_,by rw [readEhdr,h₀,h₁,h₂,h₃,h₄,h₅,h₆,h₇,h₈]; rfl⟩

theorem readPhdr_some (at_ : Nat) (hn : at_ + phdrSize ≤ image.length) : ∃ p, readPhdr image at_ = some p := by
  unfold phdrSize at hn
  have hread : ∀ k n, k + n ≤ 56 → ∃ x, readLe image (at_ + k) n = some x :=
    fun k n hle => readLe_some (at_ + k) n (by omega)
  obtain ⟨_,h₁⟩ := hread 0 4 (by decide)
  obtain ⟨_,h₂⟩ := hread 4 4 (by decide)
  obtain ⟨_,h₃⟩ := hread 8 8 (by decide)
  obtain ⟨_,h₄⟩ := hread 16 8 (by decide)
  obtain ⟨_,h₅⟩ := hread 32 8 (by decide)
  obtain ⟨_,h₆⟩ := hread 40 8 (by decide)
  obtain ⟨_,h₇⟩ := hread 48 8 (by decide)
  rw [Nat.add_zero] at h₁
  exact ⟨_,by rw [readPhdr,h₁,h₂,h₃,h₄,h₅,h₆,h₇]; rfl⟩

def Ehdr.Fits (h : Ehdr) (image : List UInt8) : Prop := h.phoff + h.phnum*phdrSize ≤ image.length

def phdrAt (image : List UInt8) (h : Ehdr) (i : Nat) : Phdr := (readPhdr image (h.phoff + i*phdrSize)).getD default

theorem readPhdr_phdrAt (hf : h.Fits image) (hi : i < h.phnum) :
    readPhdr image (h.phoff + i*phdrSize) = some (phdrAt image h i) := by
  have hle : (i+1)*phdrSize ≤ h.phnum*phdrSize := Nat.mul_le_mul_right _ hi
  rw [Nat.add_mul,Nat.one_mul] at hle
  have hend : h.phoff + i*phdrSize + phdrSize ≤ image.length := by
    unfold Ehdr.Fits at hf
    omega
  obtain ⟨p,hp⟩ := readPhdr_some _ hend
  rw [phdrAt,hp]
  rfl

/-- A segment with its bytes in the file and its pages in the window of users. -/
structure Phdr.Good (p : Phdr) (size : Nat) : Prop where
  nonempty : 0 < p.memsz
  file : p.filesz ≤ p.memsz
  bytes : p.offset + p.filesz ≤ size
  low : 2^39 ≤ p.vaddr
  high : p.vaddr + p.memsz ≤ 2^47
  exclusive : ¬ (p.writable = true ∧ p.executable = true)

def Phdr.Apart (p q : Phdr) : Prop := p.pageEnd ≤ q.pageBegin ∨ q.pageEnd ≤ p.pageBegin

theorem Phdr.good_of_outside {size : Nat} (hm : p.memsz ≠ 0) (ho : p.outside size = false) : p.Good size := by
  simp only [Phdr.outside,Bool.or_eq_false_iff,decide_eq_false_iff_not] at ho
  simp only [UserLayout.amd64] at ho
  refine ⟨by omega,by omega,by omega,by omega,by omega,fun hwx => ?_⟩
  simp only [Phdr.writable,Phdr.executable,decide_eq_true_eq] at hwx
  omega

theorem overlapsBefore_spec (p : Phdr) (left : Nat) (hf : h.Fits image) (hn : i + left ≤ h.phnum) :
    ∃ b, overlapsBefore image h p left i = some b ∧
      (b = false → ∀ j, i ≤ j → j < i + left → (phdrAt image h j).loads = true → (phdrAt image h j).Apart p) := by
  induction left generalizing i with
  | zero => exact ⟨false,rfl,fun _ j h₁ h₂ => absurd h₁ (by omega)⟩
  | succ left ih =>
    obtain ⟨b,hb,hapart⟩ := ih (i := i+1) (by omega)
    rw [overlapsBefore,readPhdr_phdrAt hf (by omega)]
    simp only [bind_eq_bind,bind_some]
    -- the header at `i` and those behind it
    have hcons : (b = false → (phdrAt image h i).loads = true → (phdrAt image h i).Apart p) → b = false →
        ∀ j, i ≤ j → j < i + (left+1) → (phdrAt image h j).loads = true → (phdrAt image h j).Apart p := by
      intro hi hbf j h₁ h₂ hj
      rcases Nat.eq_or_lt_of_le h₁ with rfl | hlt
      · exact hi hbf hj
      · exact hapart hbf j hlt (by omega) hj
    cases hl : (phdrAt image h i).loads with
    | false =>
      refine ⟨b,by simp [hb],hcons fun _ hi => ?_⟩
      rw [hl] at hi
      cases hi
    | true =>
      simp only [Bool.not_true,Bool.false_eq_true,if_false]
      split
      · exact ⟨true,rfl,nofun⟩
      rename_i hno
      refine ⟨b,hb,hcons fun _ _ => ?_⟩
      simp only [Bool.and_eq_true,decide_eq_true_eq,not_and,Nat.not_lt] at hno
      unfold Phdr.Apart
      omega

/-- What the loop has checked of the headers from `i` on -/
def Checked (image : List UInt8) (h : Ehdr) (i : Nat) : Prop :=
  ∀ k, i ≤ k → k < h.phnum → (phdrAt image h k).loads = true → (phdrAt image h k).Good image.length ∧
    ∀ j, j < k → (phdrAt image h j).loads = true → (phdrAt image h j).Apart (phdrAt image h k)

theorem Checked.cons (hc : Checked image h (i+1))
    (hi : (phdrAt image h i).loads = true → (phdrAt image h i).Good image.length ∧
      ∀ j, j < i → (phdrAt image h j).loads = true → (phdrAt image h j).Apart (phdrAt image h i)) :
    Checked image h i := by
  intro k h₁ h₂ hk
  rcases Nat.eq_or_lt_of_le h₁ with rfl | hlt
  · exact hi hk
  · exact hc k hlt h₂ hk

theorem validateFrom_spec (left : Nat) (hf : h.Fits image) (hn : i + left = h.phnum) (e : Bool) :
    ∃ b, validateFrom image h left i e = some b ∧ (b = true → Checked image h i ∧
      (e = true ∨ ∃ k, k < h.phnum ∧ (phdrAt image h k).loads = true ∧ (phdrAt image h k).enters h.entry = true)) := by
  induction left generalizing i e with
  | zero => exact ⟨e,rfl,fun he => ⟨fun k h₁ h₂ => absurd h₁ (by omega),.inl he⟩⟩
  | succ left ih =>
    rw [validateFrom,readPhdr_phdrAt hf (by omega)]
    simp only [bind_eq_bind,bind_some]
    have hno : ∃ b, some false = some b ∧ (b = true → Checked image h i ∧ (e = true ∨ ∃ k, k < h.phnum ∧
        (phdrAt image h k).loads = true ∧ (phdrAt image h k).enters h.entry = true)) :=
      ⟨false,rfl,nofun⟩
    -- a header that is not loaded
    have hskip : (phdrAt image h i).loads = false → ∃ b, validateFrom image h left (i+1) e = some b ∧
        (b = true → Checked image h i ∧ (e = true ∨ ∃ k, k < h.phnum ∧
        (phdrAt image h k).loads = true ∧ (phdrAt image h k).enters h.entry = true)) := by
      intro hl
      obtain ⟨b,hb,hchecked⟩ := ih (i := i+1) (by omega) e
      refine ⟨b,hb,fun hbt => ⟨(hchecked hbt).1.cons fun hi => ?_,(hchecked hbt).2⟩⟩
      rw [hl] at hi
      cases hi
    split
    · rename_i ht
      exact hskip (by simp [Phdr.loads,ht])
    rename_i ht
    split
    · rename_i hm
      split
      · exact hno
      · exact hskip (by simp [Phdr.loads,hm])
    rename_i hm
    split
    · exact hno
    rename_i ho
    split
    · exact hno
    obtain ⟨o,hover,hapart⟩ := overlapsBefore_spec (i := 0) (phdrAt image h i) i hf (by omega)
    rw [hover,bind_some]
    cases o with
    | true => exact hno
    | false =>
      obtain ⟨b,hb,hchecked⟩ := ih (i := i+1) (by omega) (e || (phdrAt image h i).enters h.entry)
      refine ⟨b,hb,fun hbt => ⟨(hchecked hbt).1.cons fun _ => ⟨Phdr.good_of_outside hm (by simpa using ho),
        fun j hj => hapart rfl j (Nat.zero_le j) (by omega)⟩,?_⟩⟩
      rcases (hchecked hbt).2 with he | hk
      · rw [Bool.or_eq_true] at he
        rcases he with he | he
        · exact .inl he
        · exact .inr ⟨i,by omega,by simpa [Phdr.loads] using ⟨not_not.mp ht,hm⟩,he⟩
      · exact .inr hk

structure Accepted (image : List UInt8) (h : Ehdr) : Prop where
  header : readEhdr image = some h
  fits : h.Fits image
  checked : Checked image h 0
  entered : ∃ k, k < h.phnum ∧ (phdrAt image h k).loads = true ∧ (phdrAt image h k).enters h.entry = true

theorem validate_spec (image : List UInt8) (machine : Nat) :
    ∃ b, validate image machine = some b ∧ (b = true → ∃ h, Accepted image h) := by
  unfold validate
  split
  · exact ⟨false,rfl,nofun⟩
  rename_i hlen
  obtain ⟨h,hh⟩ := readEhdr_some (Nat.not_lt.mp hlen)
  rw [hh]
  simp only [bind_eq_bind,bind_some]
  split
  · exact ⟨false,rfl,nofun⟩
  rename_i hc
  simp only [Bool.or_eq_true,decide_eq_true_eq,not_or,Nat.not_lt] at hc
  obtain ⟨⟨-,hoff⟩,hnum⟩ := hc
  have hfits : h.Fits image := by
    have hmul : h.phnum*phdrSize ≤ (image.length - h.phoff)/phdrSize*phdrSize := Nat.mul_le_mul_right _ hnum
    have hdiv := Nat.div_mul_le_self (image.length - h.phoff) phdrSize
    unfold Ehdr.Fits
    omega
  obtain ⟨b,hb,hchecked⟩ := validateFrom_spec (i := 0) h.phnum hfits (by omega) false
  refine ⟨b,hb,fun hbt => ⟨h,hh,hfits,(hchecked hbt).1,?_⟩⟩
  rcases (hchecked hbt).2 with he | hk
  · cases he
  · exact hk

end Rucux.Process
