import Rucux.Vfs.Fat32
import Rucux.Lib.Trail
import Mathlib.Data.List.GetD

/-! What lies where on a mounted volume. The boot sector that `mount` accepts fixes the layout: the first
table, then the data area, all inside the partition and below 2^32. -/

namespace Rucux.Vfs.Fat32
open Rucux.Lib Function Bpb

/-- What the later arithmetic needs of a parsed boot sector. -/
structure Layout (info : Info) : Prop where
  spc_pos : 0 < info.sectorsPerCluster
  count_lt : info.clusterCount + 1 < 0x0FFFFFF0
  table_end : info.fatLba + (info.clusterCount + 1) / 128 < info.dataLba
  data_end : info.dataLba + info.clusterCount * info.sectorsPerCluster < 2^32

/-- The layout against the fields of the boot sector. -/
structure Geometry (b : Sector) (partition : Nat) (info : Info) : Prop extends Layout info where
  reserved_pos : 0 < reserved b
  fats_pos : 0 < fats b
  fatLba_eq : info.fatLba = partition + reserved b
  dataLba_eq : info.dataLba = partition + metadata b
  covered : info.clusterCount + 2 ≤ sectorsPerFat b * 128
  inside : metadata b + info.clusterCount * info.sectorsPerCluster ≤ total b
  below : partition + total b < 2^32

theorem u32_of_lt {n : Nat} (h : n < 2^32) : u32 n = n := Nat.mod_eq_of_lt h

theorem geometry_of_parsed {b : Sector} {partition : Nat} (hp : partition < 2^32)
    (hr : rejected b partition = false)
    (hc : ¬((parsed b partition).clusterCount = 0 ∨
      0x0FFFFFF0 ≤ u32 ((parsed b partition).clusterCount + 1) ∨
      sectorsPerFat b * (sectorSize / 4) < (parsed b partition).clusterCount + 2)) :
    Geometry b partition (parsed b partition) := by
  simp only [rejected,decide_eq_false_iff_not,not_or] at hr
  obtain ⟨_,_,_,hn,_,_,hres,hfats,_,_,htotal,hfits,_⟩ := hr
  have hfits : partition + total b < 2^32 := by simp only [uint32Max] at hfits; omega
  have hroom : (total b - metadata b) / sectorsPerCluster b * sectorsPerCluster b ≤
      total b - metadata b := Nat.div_mul_le_self _ _
  have hdiv : (total b - metadata b) / sectorsPerCluster b ≤
      total b - metadata b := Nat.div_le_self _ _
  have hmeta : metadata b = reserved b + fats b * sectorsPerFat b := rfl
  have hfat : sectorsPerFat b ≤ fats b * sectorsPerFat b :=
    Nat.le_mul_of_pos_left _ (Nat.pos_of_ne_zero hfats)
  have hcount : (parsed b partition).clusterCount =
      (total b - metadata b) / sectorsPerCluster b := u32_of_lt (by omega)
  have hfatLba : (parsed b partition).fatLba = partition + reserved b := u32_of_lt (by omega)
  have hdata : (parsed b partition).dataLba = partition + metadata b := u32_of_lt (by omega)
  have hspc : (parsed b partition).sectorsPerCluster = sectorsPerCluster b := rfl
  rw [hcount,u32_of_lt (by omega : _ < 2^32)] at hc
  simp only [sectorSize,not_or,not_le,not_lt] at hc
  exact {
    spc_pos := by omega
    count_lt := by omega
    table_end := by omega
    data_end := by rw [hcount,hdata,hspc]; omega
    reserved_pos := by omega
    fats_pos := by omega
    fatLba_eq := hfatLba
    dataLba_eq := hdata
    covered := by omega
    inside := by rw [hcount,hspc]; omega
    below := hfits }

section Layout
variable {info : Info} {c c' s s' : Nat}

theorem validCluster_iff : validCluster info c = true ↔ 2 ≤ c ∧ c - 2 < info.clusterCount := by
  simp [validCluster]

def fatSector (info : Info) (c : Nat) : Nat := info.fatLba + c / 128

def clusterSector (info : Info) (c s : Nat) : Nat :=
  info.dataLba + (c-2) * info.sectorsPerCluster + s

theorem Layout.fatSector_lt (h : Layout info) (hc : validCluster info c = true) :
    fatSector info c < info.dataLba := by
  have hv := validCluster_iff.mp hc
  have hd : c / 128 ≤ (info.clusterCount + 1) / 128 := Nat.div_le_div_right (by omega)
  have ht := h.table_end
  simp only [fatSector]
  omega

theorem clusterSector_lt (hc : validCluster info c = true) (hs : s < info.sectorsPerCluster) :
    clusterSector info c s < info.dataLba + info.clusterCount * info.sectorsPerCluster := by
  have hv := validCluster_iff.mp hc
  have hm : (c-2+1) * info.sectorsPerCluster ≤ info.clusterCount * info.sectorsPerCluster :=
    Nat.mul_le_mul_right _ (by omega)
  rw [Nat.add_mul] at hm
  simp only [clusterSector]
  omega

theorem le_clusterSector : info.dataLba ≤ clusterSector info c s := by
  simp only [clusterSector]; omega

section
variable (h : Layout info) (hc : validCluster info c = true)
include h hc

/-- The 32-bit computations of sector numbers never wrap. -/
theorem Layout.fat_lba_eq : u32 (info.fatLba + u32 (c * 4) / sectorSize) = fatSector info c := by
  have hv := validCluster_iff.mp hc
  have hl := h.fatSector_lt hc
  have hd := h.data_end
  have hn := h.count_lt
  rw [u32_of_lt (by omega : c * 4 < 2^32)]
  have he : c * 4 / sectorSize = c / 128 := by simp only [sectorSize]; omega
  rw [he]
  exact u32_of_lt (show fatSector info c < 2^32 by omega)

theorem Layout.fat_offset_eq : u32 (c * 4) % sectorSize = c % 128 * 4 := by
  have hv := validCluster_iff.mp hc
  have hn := h.count_lt
  rw [u32_of_lt (by omega : c * 4 < 2^32)]
  simp only [sectorSize]
  omega

theorem Layout.clusterToLba_eq : clusterToLba info c = info.dataLba + (c-2) * info.sectorsPerCluster := by
  have hv := validCluster_iff.mp hc
  have hl := clusterSector_lt hc h.spc_pos
  have hd := h.data_end
  have hn := h.count_lt
  have hsub : u32 (c + 2^32 - 2) = c - 2 := by simp only [u32]; omega
  simp only [clusterSector] at hl
  rw [clusterToLba,hsub,u32_of_lt (by omega : (c-2) * info.sectorsPerCluster < 2^32),
    u32_of_lt (by omega)]

theorem Layout.sector_lba_eq (hs : s < info.sectorsPerCluster) :
    u32 (clusterToLba info c + s) = clusterSector info c s := by
  have hl := clusterSector_lt hc hs
  have hd := h.data_end
  rw [h.clusterToLba_eq hc]
  exact u32_of_lt (show clusterSector info c s < 2^32 by omega)

end

theorem clusterSector_inj (hc : 2 ≤ c) (hc' : 2 ≤ c') (hs : s < info.sectorsPerCluster)
    (hs' : s' < info.sectorsPerCluster) (h : clusterSector info c s = clusterSector info c' s') :
    c = c' ∧ s = s' := by
  simp only [clusterSector] at h
  have h : (c-2) * info.sectorsPerCluster + s = (c'-2) * info.sectorsPerCluster + s' := by omega
  have hdiv : c - 2 = c' - 2 := by
    have hpos : 0 < info.sectorsPerCluster := by omega
    have := congrArg (· / info.sectorsPerCluster) h
    simpa [Nat.mul_comm _ info.sectorsPerCluster,Nat.mul_add_div hpos,Nat.div_eq_of_lt hs,
      Nat.div_eq_of_lt hs'] using this
  rw [hdiv] at h
  omega

end Layout

def fatNext (info : Info) (d : Disk) (c : Nat) : Option Nat :=
  if validCluster info c then
    let next := read32 (d (fatSector info c)) (c % 128 * 4) % 2^28
    if endOfChain ≤ next then some 0
    else if validCluster info next then some next
    else none
  else none

abbrev Chain (info : Info) (d : Disk) (start : Nat) (cs : List Nat) : Prop :=
  Trail (fatNext info d) 0 start cs

def chain? (info : Info) (d : Disk) (start : Nat) : Option (List Nat) :=
  trail? (fatNext info d) 0 info.clusterCount start

theorem fatNext_valid {info : Info} {d : Disk} {c n : Nat} (h : fatNext info d c = some n) :
    validCluster info c = true := by
  by_contra hv
  simp [fatNext,hv] at h

theorem Chain.valid {info : Info} {d : Disk} {start c : Nat} {cs : List Nat}
    (h : Chain info d start cs) (hc : c ∈ cs) : validCluster info c = true := by
  obtain ⟨n,hn⟩ := Option.isSome_iff_exists.mp (h.next_isSome hc)
  exact fatNext_valid hn

/-- The two disks have the same boot sector, reserved area and tables. -/
def SameTables (info : Info) (d d' : Disk) : Prop := ∀ lba, lba < info.dataLba → d' lba = d lba

theorem SameTables.fatNext {info : Info} {d d' : Disk} (h : SameTables info d d') (hl : Layout info) :
    fatNext info d' = fatNext info d := by
  funext c
  by_cases hc : validCluster info c = true
  · simp only [Fat32.fatNext,h _ (hl.fatSector_lt hc)]
  · simp [Fat32.fatNext,hc]

def clusterBytes (info : Info) : Nat := info.sectorsPerCluster * sectorSize

def fileSector (info : Info) (cs : List Nat) (q : Nat) : Nat :=
  clusterSector info (cs.getD (q / info.sectorsPerCluster) 0) (q % info.sectorsPerCluster)

def fileByte (info : Info) (cs : List Nat) (d : Disk) (p : Nat) : UInt8 :=
  d (fileSector info cs (p / sectorSize)) (p % sectorSize)

section Bytes
variable {info : Info} {cs : List Nat} {d : Disk} {start q q' : Nat}

theorem fileSector_index {v s : Nat} (hs : s < info.sectorsPerCluster) :
    fileSector info cs (v * info.sectorsPerCluster + s) = clusterSector info (cs.getD v 0) s := by
  have hpos : 0 < info.sectorsPerCluster := by omega
  simp only [fileSector]
  rw [Nat.mul_comm v,Nat.mul_add_div hpos,Nat.mul_add_mod,Nat.div_eq_of_lt hs,Nat.mod_eq_of_lt hs,
    Nat.add_zero]

theorem getD_mem {v : Nat} (hv : v < cs.length) : cs.getD v 0 ∈ cs := by
  rw [List.getD_eq_getElem _ _ hv]
  exact List.getElem_mem hv

section
variable (h : Layout info) (hq : q < cs.length * info.sectorsPerCluster)
include h hq

theorem index_lt :
    q / info.sectorsPerCluster < cs.length ∧ q % info.sectorsPerCluster < info.sectorsPerCluster :=
  ⟨(Nat.div_lt_iff_lt_mul h.spc_pos).mpr hq,Nat.mod_lt _ h.spc_pos⟩

theorem fileSector_mem :
    ∃ c ∈ cs, ∃ s < info.sectorsPerCluster, fileSector info cs q = clusterSector info c s :=
  ⟨_,getD_mem (index_lt h hq).1,_,(index_lt h hq).2,rfl⟩

end

theorem fileSector_inj (h : Layout info) (hc : Chain info d start cs)
    (hq : q < cs.length * info.sectorsPerCluster) (hq' : q' < cs.length * info.sectorsPerCluster)
    (he : fileSector info cs q = fileSector info cs q') : q = q' := by
  obtain ⟨hv,hs⟩ := index_lt h hq
  obtain ⟨hv',hs'⟩ := index_lt h hq'
  have hval := (validCluster_iff.mp (hc.valid (getD_mem hv))).1
  have hval' := (validCluster_iff.mp (hc.valid (getD_mem hv'))).1
  obtain ⟨h1,h2⟩ := clusterSector_inj hval hval' hs hs' he
  rw [List.getD_eq_getElem _ _ hv,List.getD_eq_getElem _ _ hv'] at h1
  have h1 := (List.Nodup.getElem_inj_iff hc.nodup).mp h1
  rw [← Nat.div_add_mod q info.sectorsPerCluster,h1,h2,Nat.div_add_mod]

theorem sector_of_byte {p : Nat} (hp : p < cs.length * clusterBytes info) :
    p / sectorSize < cs.length * info.sectorsPerCluster := by
  rw [Nat.div_lt_iff_lt_mul (by decide),Nat.mul_assoc]
  exact hp

theorem fileByte_update (h : Layout info) (hc : Chain info d start cs) (d' : Disk) (s : Sector)
    (hq : q < cs.length * info.sectorsPerCluster) {p : Nat} (hp : p < cs.length * clusterBytes info) :
    fileByte info cs (update d' (fileSector info cs q) s) p =
      if p / sectorSize = q then s (p % sectorSize) else fileByte info cs d' p := by
  simp only [fileByte]
  split
  next heq => rw [heq,update_self]
  next hne => rw [update_of_ne fun he => hne (fileSector_inj h hc (sector_of_byte hp) hq he)]

theorem fileByte_update_other {lba : Nat} (s : Sector) {p : Nat}
    (hlba : ∀ q < cs.length * info.sectorsPerCluster, fileSector info cs q ≠ lba)
    (hp : p < cs.length * clusterBytes info) :
    fileByte info cs (update d lba s) p = fileByte info cs d p := by
  simp only [fileByte]
  rw [update_of_ne (hlba _ (sector_of_byte hp))]

end Bytes

open Rucux.Lib.Io List

def TableReadable (info : Info) (E : Terms Sector) : Prop :=
  ∀ c, validCluster info c = true → E.mayRead (fatSector info c)

structure Readable (info : Info) (E : Terms Sector) : Prop where
  table : TableReadable info E
  data : ∀ c s, validCluster info c = true → s < info.sectorsPerCluster →
    E.mayRead (clusterSector info c s)

section Chains
variable {info : Info} {E : Terms Sector} {d : Disk}

section
variable (hl : Layout info) (hr : TableReadable info E) (hs : E.safe d)
include hl hr hs

theorem nextCluster_meets (c : Nat) : (nextCluster info c).Meets E d fun r d' =>
      d' = d ∧ (r = fatNext info d c ∨ r = none ∧ E.readFails = true) := by
  by_cases hc : validCluster info c = true
  · rw [nextCluster,if_pos hc]
    simp only [hl.fat_lba_eq hc,hl.fat_offset_eq hc]
    refine meets_read (hr c hc) (fun hf => meets_pure hs ⟨rfl,.inr ⟨rfl,hf⟩⟩) ?_
    simp only [fatNext,if_pos hc]
    split
    · exact meets_pure hs ⟨rfl,.inl rfl⟩
    · split <;> exact meets_pure hs ⟨rfl,.inl rfl⟩
  · rw [nextCluster,if_neg hc]
    exact meets_pure hs ⟨rfl,.inl (by simp [fatNext,hc])⟩

theorem capacityLoop_meets (rounds c bytes : Nat) :
    (capacityLoop info rounds c bytes).Meets E d fun r d' =>
      d' = d ∧ (r = (trail? (fatNext info d) 0 rounds c).map (fun cs => bytes + cs.length * clusterBytes info) ∨
        r = none ∧ E.readFails = true) := by
  induction rounds generalizing c bytes with
  | zero =>
    refine meets_pure hs ⟨rfl,.inl ?_⟩
    by_cases hc : c = 0 <;> simp [trail?,hc]
  | succ rounds ih =>
    by_cases hc : c = 0
    · simp only [capacityLoop,if_pos hc]
      exact meets_pure hs ⟨rfl,.inl (by simp [trail?,hc])⟩
    by_cases hv : validCluster info c = true
    · simp only [capacityLoop,if_neg hc,if_pos hv]
      refine (nextCluster_meets hl hr hs c).bind ?_
      rintro r d' ⟨rfl,hr | ⟨rfl,hf⟩⟩
      · cases r with
        | none => exact meets_pure hs ⟨rfl,.inl (by simp [trail?,hc,← hr])⟩
        | some n =>
          refine (ih n _).mono ?_
          rintro r d'' ⟨rfl,hn | hn⟩
          · refine ⟨rfl,.inl ?_⟩
            rw [hn,trail?,if_neg hc,← hr,Option.bind_some,Option.map_map]
            congr 1
            funext cs
            simp only [comp_apply,length_cons,clusterBytes,Nat.add_mul]
            omega
          · exact ⟨rfl,.inr hn⟩
      · exact meets_pure hs ⟨rfl,.inr ⟨rfl,hf⟩⟩
    · simp only [capacityLoop,if_neg hc,if_neg hv]
      exact meets_pure hs ⟨rfl,.inl (by simp [trail?,hc,fatNext,hv])⟩

theorem chainCapacity_meets (start : Nat) : (chainCapacity info start).Meets E d fun r d' =>
      d' = d ∧ (r = (chain? info d start).map (fun cs => cs.length * clusterBytes info) ∨
        r = none ∧ E.readFails = true) := by
  simpa [chainCapacity,chain?] using capacityLoop_meets hl hr hs info.clusterCount start 0

theorem skipClusters_meets {skip c : Nat} {cs : List Nat} (hc : Chain info d c cs)
    (hskip : skip < cs.length) :
    (skipClusters info skip c).Meets E d fun r d' =>
      d' = d ∧ ((∃ c', r = some c' ∧ Chain info d c' (cs.drop skip)) ∨
        r = none ∧ E.readFails = true) := by
  induction skip generalizing c cs with
  | zero => exact meets_pure hs ⟨rfl,.inl ⟨c,rfl,hc⟩⟩
  | succ skip ih =>
    cases cs with
    | nil => simp at hskip
    | cons x xs =>
      obtain ⟨rfl,_,n,hn,hxs⟩ := hc
      refine (nextCluster_meets hl hr hs x).bind ?_
      rintro r d' ⟨rfl,hr | ⟨rfl,hf⟩⟩
      · obtain rfl : r = some n := hr.trans hn
        have hxs0 : skip < xs.length := by simpa using hskip
        -- the chain goes on, so its next cluster is not the end
        have hn0 : n ≠ 0 := by
          rintro rfl
          cases xs with
          | nil => simp at hxs0
          | cons y ys => exact hxs.2.1 rfl
        simp only [if_neg hn0]
        exact ih hxs hxs0
      · exact meets_pure hs ⟨rfl,.inr ⟨rfl,hf⟩⟩

end

end Chains

/-- Nothing changed but the bytes of the request, each of which is old or new. -/
structure Wrote (info : Info) (cs : List Nat) (buffer : Nat → UInt8) (offset size : Nat)
    (d d' : Disk) : Prop where
  outside : ∀ lba, (∀ q < cs.length * info.sectorsPerCluster, fileSector info cs q ≠ lba) → d' lba = d lba
  bytes : ∀ p < cs.length * clusterBytes info, fileByte info cs d' p = fileByte info cs d p ∨
    offset ≤ p ∧ p < offset + size ∧ fileByte info cs d' p = buffer (p - offset)

def Stored (info : Info) (cs : List Nat) (buffer : Nat → UInt8) (offset count : Nat) (d : Disk) : Prop :=
  ∀ j < count, fileByte info cs d (offset + j) = buffer j

section Wrote
variable {info : Info} {cs : List Nat} {buffer : Nat → UInt8} {offset size start : Nat} {d d' : Disk}

theorem Wrote.refl : Wrote info cs buffer offset size d d := ⟨fun _ _ => rfl,fun _ _ => .inl rfl⟩

theorem Wrote.sameTables (h : Wrote info cs buffer offset size d d') (hl : Layout info) :
    SameTables info d d' := by
  intro lba hlba
  refine h.outside lba fun q hq he => ?_
  obtain ⟨c,_,s,_,hcs⟩ := fileSector_mem hl hq
  have hge : info.dataLba ≤ clusterSector info c s := le_clusterSector
  omega

theorem fileByte_memcpy (hl : Layout info) (hc : Chain info d start cs) {pos done count : Nat}
    (hcount : pos % sectorSize + count ≤ sectorSize) (hcount0 : 0 < count)
    (hroom : pos + count ≤ cs.length * clusterBytes info) {p : Nat}
    (hp : p < cs.length * clusterBytes info) :
    fileByte info cs (update d' (fileSector info cs (pos / sectorSize))
        (memcpy (d' (fileSector info cs (pos / sectorSize))) (pos % sectorSize) buffer done count)) p =
      if pos ≤ p ∧ p < pos + count then buffer (done + (p - pos)) else fileByte info cs d' p := by
  rw [fileByte_update hl hc d' _ (sector_of_byte (by omega)) hp]
  by_cases hsec : p / sectorSize = pos / sectorSize
  · rw [if_pos hsec]
    -- in one sector, places compare as positions do
    have hiff : pos % sectorSize ≤ p % sectorSize ∧ p % sectorSize < pos % sectorSize + count ↔
        pos ≤ p ∧ p < pos + count := by simp only [sectorSize] at *; omega
    have hsub : p % sectorSize - pos % sectorSize = p - pos := by simp only [sectorSize] at *; omega
    simp only [memcpy,fileByte,hsec,hiff,hsub]
  rw [if_neg hsec,if_neg]
  simp only [sectorSize] at *
  omega

theorem Wrote.sector (hw : Wrote info cs buffer offset size d d') (hl : Layout info)
    (hc : Chain info d start cs) {done count : Nat} (hst : Stored info cs buffer offset done d')
    (hcount : (offset + done) % sectorSize + count ≤ sectorSize) (hcount0 : 0 < count)
    (hsize : done + count ≤ size) (hroom : offset + size ≤ cs.length * clusterBytes info) {d'' : Disk}
    (hd : d'' = update d' (fileSector info cs ((offset + done) / sectorSize))
      (memcpy (d' (fileSector info cs ((offset + done) / sectorSize))) ((offset + done) % sectorSize)
        buffer done count)) :
    Wrote info cs buffer offset size d d'' ∧ Stored info cs buffer offset (done + count) d'' := by
  have hbyte : ∀ p < cs.length * clusterBytes info, fileByte info cs d'' p =
      if offset + done ≤ p ∧ p < offset + done + count then buffer (p - offset)
      else fileByte info cs d' p := by
    intro p hp
    rw [hd,fileByte_memcpy hl hc hcount hcount0 (by omega) hp]
    split
    next hin => congr 1; omega
    · rfl
  refine ⟨⟨fun lba hlba => ?_,fun p hp => ?_⟩,fun j hj => ?_⟩
  · rw [hd,update_of_ne (hlba _ (sector_of_byte (by omega))).symm]
    exact hw.outside lba hlba
  · rw [hbyte p hp]
    split
    next hin => exact .inr ⟨by omega,by omega,rfl⟩
    · exact hw.bytes p hp
  rw [hbyte _ (by omega)]
  split
  · congr 1; omega
  next hout => exact hst j (by omega)

theorem Stored.mono {count count' : Nat} (h : Stored info cs buffer offset count d)
    (hle : count' ≤ count) : Stored info cs buffer offset count' d := fun j hj => h j (by omega)

end Wrote

/-- Where a transfer stands: what it reports to have moved, it has moved. -/
structure Moved (info : Info) (cs : List Nat) (buffer : Nat → UInt8) (writing : Bool)
    (offset size : Nat) (d : Disk) (t : Progress) (d' : Disk) : Prop where
  done_le : t.done ≤ size
  wrote : writing = true → Wrote info cs buffer offset size d d' ∧ Stored info cs buffer offset t.done d'
  kept : writing = false → d' = d ∧ t.bytes = (range t.done).map fun j => fileByte info cs d (offset + j)

def Fails (E : Terms Sector) (writing : Bool) : Prop :=
  E.readFails = true ∨ writing = true ∧ E.writeFails = true

structure Transferable (info : Info) (cs : List Nat) (buffer : Nat → UInt8) (writing : Bool)
    (offset size : Nat) (d : Disk) (E : Terms Sector) : Prop extends Readable info E where
  sectors : writing = true → ∀ d', Wrote info cs buffer offset size d d' →
    ∀ q < cs.length * info.sectorsPerCluster, ∀ s, E.mayWrite d' (fileSector info cs q) s
  steady : E.safe d
  between : writing = true → ∀ d', Wrote info cs buffer offset size d d' → E.safe d'

section Transfer
variable {info : Info} {cs : List Nat} {buffer : Nat → UInt8} {writing : Bool} {offset size : Nat}
  {d d' : Disk} {t : Progress} {E : Terms Sector} {start : Nat}

section
variable (h : Moved info cs buffer writing offset size d t d')
include h

theorem Moved.sameTables (hl : Layout info) : SameTables info d d' := by
  cases writing with
  | true => exact (h.wrote rfl).1.sameTables hl
  | false => rw [(h.kept rfl).1]; exact fun _ _ => rfl

theorem Moved.safe (ht : Transferable info cs buffer writing offset size d E) : E.safe d' := by
  cases writing with
  | true => exact ht.between rfl d' (h.wrote rfl).1
  | false => rw [(h.kept rfl).1]; exact ht.steady

end

theorem piece_facts {pos done q so count : Nat} (hd : done < size)
    (hpos : pos = q * sectorSize + so % sectorSize)
    (hcount : count = min (size - done) (sectorSize - so % sectorSize)) :
    pos / sectorSize = q ∧ pos % sectorSize = so % sectorSize ∧ 0 < count ∧
      so % sectorSize + count ≤ sectorSize ∧ done + count ≤ size ∧
      (done + count < size → pos + count = (q+1) * sectorSize) := by
  simp only [sectorSize] at *
  omega

section
variable (hl : Layout info) (hc : Chain info d start cs)
  (ht : Transferable info cs buffer writing offset size d E)
  (hroom : offset + size ≤ cs.length * clusterBytes info) {v rounds : Nat}
include hl hc ht hroom

theorem transferSectors_meets (hv : v < cs.length) {sec : Nat}
    (hsec : sec + rounds = info.sectorsPerCluster) (hm : Moved info cs buffer writing offset size d t d')
    (hpos : t.done < size → offset + t.done =
      (v * info.sectorsPerCluster + sec) * sectorSize + t.clusterOffset % sectorSize) :
    (transferSectors size buffer writing (clusterToLba info (cs.getD v 0)) rounds sec t).Meets E d'
      fun r d'' => Moved info cs buffer writing offset size d r.1 d'' ∧ (r.2 = false → Fails E writing) ∧
        (r.2 = true → r.1.done < size →
          offset + r.1.done = (v+1) * clusterBytes info + r.1.clusterOffset % sectorSize) ∧
        (t.clusterOffset = 0 ∨ 0 < rounds ∧ t.done < size → r.2 = true → r.1.clusterOffset = 0) := by
  induction rounds generalizing sec t d' with
  | zero =>
    refine meets_pure (hm.safe ht) ⟨hm,by simp,fun _ hlt => ?_,fun h _ => ?_⟩
    · rw [hpos hlt,Nat.add_zero] at *
      rw [hsec,← Nat.succ_mul,Nat.mul_assoc]
      rfl
    · exact h.resolve_right fun h => absurd h.1 (Nat.lt_irrefl 0)
  | succ rounds ih =>
    by_cases hd : t.done < size
    case neg =>
      simp only [transferSectors,if_neg hd]
      exact meets_pure (hm.safe ht) ⟨hm,by simp,fun _ hlt => absurd hlt hd,
        fun h _ => h.resolve_right fun h => hd h.2⟩
    simp only [transferSectors,if_pos hd]
    generalize hcount : min (size - t.done) (sectorSize - t.clusterOffset % sectorSize) = count
    obtain ⟨hq,hso,hcount0,hfit,hle,hnext⟩ := piece_facts hd (hpos hd) hcount.symm
    have hvalid := hc.valid (getD_mem hv)
    have hsector : fileSector info cs ((offset + t.done) / sectorSize) =
        u32 (clusterToLba info (cs.getD v 0) + sec) := by
      rw [hq,fileSector_index (by omega),hl.sector_lba_eq hvalid (by omega)]
    have hread : E.mayRead (u32 (clusterToLba info (cs.getD v 0) + sec)) := by
      rw [hl.sector_lba_eq hvalid (by omega)]
      exact ht.data _ _ hvalid (by omega)
    -- where the transfer stands behind the piece
    have hpos' : t.done + count < size → offset + (t.done + count) =
        (v * info.sectorsPerCluster + (sec+1)) * sectorSize + 0 % sectorSize := by
      intro hlt
      simp only [Nat.zero_mod,← Nat.add_assoc] at *
      omega
    refine meets_read hread (fun hf => ?_) ?_
    · exact meets_pure (hm.safe ht) ⟨hm,fun _ => .inl hf,by simp,by simp⟩
    cases writing with
    | false =>
      obtain ⟨rfl,hbytes⟩ := hm.kept rfl
      refine (ih (by omega) ⟨hle,by simp,fun _ => ⟨rfl,?_⟩⟩ hpos').mono ?_
      · simp only [range_add,map_append,map_map,← hbytes]
        congr 1
        apply map_congr_left
        intro j hj
        have hj := mem_range.mp hj
        simp only [comp_apply,fileByte,← hsector,← hso,← Nat.add_assoc]
        congr 2
        all_goals simp only [sectorSize] at *; omega
      · rintro r d'' ⟨h1,h2,h3,h4⟩
        exact ⟨h1,h2,h3,fun _ => h4 (.inl rfl)⟩
    | true =>
      obtain ⟨hw,hst⟩ := hm.wrote rfl
      obtain ⟨hw',hst'⟩ := hw.sector hl hc hst (by rw [hso]; exact hfit) hcount0 hle hroom rfl
      rw [hsector,hso] at hw' hst'
      have hmay : ∀ s, E.mayWrite d' (u32 (clusterToLba info (cs.getD v 0) + sec)) s := by
        rw [← hsector]
        exact ht.sectors rfl d' hw _ (sector_of_byte (by omega))
      refine meets_write (hmay _) (hm.safe ht) ?_ fun hf => ⟨?_,?_⟩
      · refine (ih (by omega) ⟨hle,fun _ => ⟨hw',hst'⟩,by simp⟩ hpos').mono ?_
        rintro r d'' ⟨h1,h2,h3,h4⟩
        exact ⟨h1,h2,h3,fun _ => h4 (.inl rfl)⟩
      · exact meets_pure (hm.safe ht) ⟨hm,fun _ => .inr ⟨rfl,hf⟩,by simp,by simp⟩
      · exact meets_pure (ht.between rfl _ hw') ⟨⟨hm.done_le,fun _ => ⟨hw',hst'.mono (Nat.le_add_right _ _)⟩,
          by simp⟩,fun _ => .inr ⟨rfl,hf⟩,by simp,by simp⟩

theorem transferClusters_meets {rest : List Nat} {c : Nat} (hrest : cs.drop v = rest)
    (hcr : Chain info d c rest) (hrounds : rest.length ≤ rounds)
    (hm : Moved info cs buffer writing offset size d t d')
    (hpos : t.done < size → offset + t.done = v * clusterBytes info + t.clusterOffset ∧
      t.clusterOffset < clusterBytes info) :
    (transferClusters info size buffer writing rounds c t).Meets E d' fun r d'' =>
      Moved info cs buffer writing offset size d r d'' ∧ (r.done = size ∨ Fails E writing) := by
  induction rest generalizing v c rounds t d' with
  | nil =>
    -- behind the chain there is nothing left to move
    have hlen : cs.length ≤ v := drop_eq_nil_iff.mp hrest
    have hdone : ¬t.done < size := by
      intro hlt
      have hge : cs.length * clusterBytes info ≤ v * clusterBytes info := Nat.mul_le_mul_right _ hlen
      omega
    have hend : transferClusters info size buffer writing rounds c t = pure t := by
      cases rounds <;> simp [transferClusters,hdone]
    rw [hend]
    exact meets_pure (hm.safe ht) ⟨hm,.inl (by have := hm.done_le; omega)⟩
  | cons x rest ih =>
    obtain ⟨rfl,_,n,hn,hnext⟩ := hcr
    obtain ⟨rounds,rfl⟩ : ∃ r, rounds = r + 1 := ⟨rounds-1,by simp at hrounds; omega⟩
    by_cases hd : t.done < size
    case neg =>
      simp only [transferClusters,hd,false_and,if_false]
      exact meets_pure (hm.safe ht) ⟨hm,.inl (by have := hm.done_le; omega)⟩
    simp only [transferClusters,hd,fatNext_valid hn,and_self,if_true]
    have hv : v < cs.length := by
      by_contra hge
      rw [drop_eq_nil_iff.mpr (by omega)] at hrest
      cases hrest
    have hx : cs.getD v 0 = x := by
      have := congrArg (·[0]?) hrest
      simpa [getElem?_eq_getElem hv] using this
    obtain ⟨hp,hco⟩ := hpos hd
    have hfirst : t.clusterOffset / sectorSize < info.sectorsPerCluster :=
      (Nat.div_lt_iff_lt_mul (by decide)).mpr hco
    have hp' : offset + t.done = (v * info.sectorsPerCluster + t.clusterOffset / sectorSize) *
        sectorSize + t.clusterOffset % sectorSize := by
      rw [hp,Nat.add_mul,Nat.mul_assoc,Nat.add_assoc,Nat.mul_comm (t.clusterOffset / _),Nat.div_add_mod]
      rfl
    have hrange : t.clusterOffset / sectorSize +
        (info.sectorsPerCluster - t.clusterOffset / sectorSize) = info.sectorsPerCluster := by omega
    have hsectors := transferSectors_meets hl hc ht hroom hv hrange hm (fun _ => hp')
    rw [hx] at hsectors
    refine hsectors.bind ?_
    rintro ⟨t',ok⟩ d'' ⟨hm',hfail,hnextpos,hzero⟩
    split
    next hstop =>
      refine meets_pure (hm'.safe ht) ⟨hm',?_⟩
      rcases hstop with hok | hdone
      · exact .inr (hfail hok)
      · exact .inl hdone
    rename_i hgo
    have hok : ok = true := by simpa using fun h => hgo (.inl h)
    have hlt : t'.done < size := lt_of_le_of_ne hm'.done_le fun h => hgo (.inr h)
    have hz : t'.clusterOffset = 0 := hzero (.inr ⟨by omega,hd⟩) hok
    refine (nextCluster_meets hl ht.table (hm'.safe ht) x).bind ?_
    rintro r d3 ⟨rfl,hr | ⟨rfl,hf⟩⟩
    · rw [(hm'.sameTables hl).fatNext hl,hn] at hr
      subst hr
      refine ih (v := v+1) ?_ hnext (by simpa using hrounds) hm' fun _ => ⟨?_,?_⟩
      · rw [← tail_drop,hrest,tail_cons]
      · have := hnextpos hok hlt
        rw [hz] at this ⊢
        simpa using this
      · rw [hz]; exact Nat.mul_pos hl.spc_pos (by decide)
    · exact meets_pure (hm'.safe ht) ⟨hm',.inr (.inl hf)⟩

end

theorem transfer_meets (hl : Layout info) {w : Vnode} (hc : Chain info d w.startCluster cs)
    (hlen : cs.length ≤ info.clusterCount)
    (ht : Transferable info cs buffer writing offset size d E)
    (hroom : offset + size ≤ cs.length * clusterBytes info) (hsize : 0 < size) :
    (transfer info w offset size buffer writing).Meets E d fun r d' =>
      Moved info cs buffer writing offset size d r d' ∧ (r.done = size ∨ Fails E writing) := by
  have hpos : 0 < clusterBytes info := Nat.mul_pos hl.spc_pos (by decide)
  have hskip : offset / clusterBytes info < cs.length := (Nat.div_lt_iff_lt_mul hpos).mpr (by omega)
  have hnone : ∀ co, Moved info cs buffer writing offset size d ⟨0,co,[]⟩ d := fun co =>
    ⟨Nat.zero_le _,fun _ => ⟨.refl,fun j hj => absurd hj (Nat.not_lt_zero j)⟩,fun _ => ⟨rfl,rfl⟩⟩
  simp only [transfer]
  rw [if_neg (by simp only [clusterBytes] at hskip; omega)]
  refine (skipClusters_meets hl ht.table ht.steady hc hskip).bind ?_
  rintro r d' ⟨rfl,⟨c,rfl,hrest⟩ | ⟨rfl,hf⟩⟩
  · refine transferClusters_meets hl hc ht hroom rfl hrest ?_ (hnone _) fun _ => ⟨?_,?_⟩
    · simp only [length_drop,clusterBytes]; omega
    · simp only [Nat.add_zero,clusterBytes]
      rw [Nat.mul_comm,Nat.div_add_mod]
    · exact Nat.mod_lt _ hpos
  · exact meets_pure ht.steady ⟨hnone _,.inr (.inl hf)⟩

end Transfer
end Rucux.Vfs.Fat32
