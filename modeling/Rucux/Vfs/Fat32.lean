import Rucux.Lib.Device
import Rucux.Lib.Machine
import Mathlib.Algebra.Order.Ring.Nat

/-! The FAT32 driver. Every operation is a program on the disk, whose sectors hold 512 bytes; the numbers of sectors
are computed in 32 bits. An operation holds the one reservation of the device throughout, so that operations never
overlap: one that finds it taken (`acquired` is false) does nothing. -/

namespace Rucux.Vfs.Fat32
open Rucux.Lib Rucux.Lib.Io

abbrev Sector := Nat → UInt8
abbrev Disk := Nat → Sector
abbrev Prog (α : Type) := Io Sector α

def sectorSize : Nat := 512
def endOfChain : Nat := 0x0FFFFFF8
def uint32Max : Nat := 2^32 - 1
def longMax : Nat := 2^63 - 1

def u32 (n : Nat) : Nat := n % 2^32

structure Info where
  fatLba : Nat
  dataLba : Nat
  clusterCount : Nat
  sectorsPerCluster : Nat
  deriving DecidableEq

inductive FileType where
  | directory
  | regular
  deriving DecidableEq

/-- A vnode with its `fat32_node_internal`; `length` is the size it has cached. -/
structure Vnode where
  type : FileType
  startCluster : Nat
  allocatedBytes : Nat
  directoryLba : Nat
  directoryOffset : Nat
  length : Nat
  deriving DecidableEq

def read16 (s : Sector) (p : Nat) : Nat := (s p).toNat + 2^8 * (s (p+1)).toNat

def read32 (s : Sector) (p : Nat) : Nat :=
  (s p).toNat + 2^8 * (s (p+1)).toNat + 2^16 * (s (p+2)).toNat + 2^24 * (s (p+3)).toNat

def write32 (s : Sector) (p value : Nat) : Sector := fun i =>
  if p ≤ i ∧ i < p + 4 then UInt8.ofNat (value / 2^(8 * (i-p))) else s i

def memcpy (s : Sector) (target : Nat) (bytes : Nat → UInt8) (source count : Nat) : Sector := fun i =>
  if target ≤ i ∧ i < target + count then bytes (source + (i - target)) else s i

def validCluster (info : Info) (cluster : Nat) : Bool :=
  decide (2 ≤ cluster ∧ cluster - 2 < info.clusterCount)

def clusterToLba (info : Info) (cluster : Nat) : Nat :=
  u32 (info.dataLba + u32 (u32 (cluster + 2^32 - 2) * info.sectorsPerCluster))

/-- The cluster after this one, 0 at the end of the chain. -/
def nextCluster (info : Info) (cluster : Nat) : Prog (Option Nat) :=
  if validCluster info cluster then do
    let offset := u32 (cluster * 4)
    let some sector ← readSector (u32 (info.fatLba + offset / sectorSize)) | pure none
    let next := read32 sector (offset % sectorSize) % 2^28
    if endOfChain ≤ next then pure (some 0)
    else if validCluster info next then pure (some next)
    else pure none
  else pure none

/-- The loop of `chain_capacity`, with the number of rounds it may still make. -/
def capacityLoop (info : Info) : Nat → Nat → Nat → Prog (Option Nat)
  | 0, cluster, bytes => pure (if cluster = 0 then some bytes else none)
  | rounds+1, cluster, bytes =>
    if cluster = 0 then pure (some bytes)
    else if validCluster info cluster then do
      let some next ← nextCluster info cluster | pure none
      capacityLoop info rounds next (bytes + info.sectorsPerCluster * sectorSize)
    else pure none

def chainCapacity (info : Info) (start : Nat) : Prog (Option Nat) :=
  capacityLoop info info.clusterCount start 0

/-- How far a transfer has come; `bytes` is what a read has copied to the caller. -/
structure Progress where
  done : Nat
  clusterOffset : Nat
  bytes : List UInt8

section Transfer
variable (info : Info) (size : Nat) (buffer : Nat → UInt8) (writing : Bool)

def transferSectors (lba : Nat) : Nat → Nat → Progress → Prog (Progress × Bool)
  | 0, _, t => pure (t,true)
  | rounds+1, sec, t =>
    if t.done < size then do
      let sectorOffset := t.clusterOffset % sectorSize
      let some sector ← readSector (u32 (lba + sec)) | pure (t,false)
      let count := min (size - t.done) (sectorSize - sectorOffset)
      if writing then
        let ok ← writeSector (u32 (lba + sec)) (memcpy sector sectorOffset buffer t.done count)
        if ok = false then pure (t,false)
        else transferSectors lba rounds (sec+1) ⟨t.done + count,0,t.bytes⟩
      else
        transferSectors lba rounds (sec+1) ⟨t.done + count,0,
          t.bytes ++ (List.range count).map fun j => sector (sectorOffset + j)⟩
    else pure (t,true)

def transferClusters : Nat → Nat → Progress → Prog Progress
  | 0, _, t => pure t
  | rounds+1, cluster, t =>
    if t.done < size ∧ validCluster info cluster = true then do
      let first := t.clusterOffset / sectorSize
      let (t,ok) ← transferSectors size buffer writing (clusterToLba info cluster)
        (info.sectorsPerCluster - first) first t
      if ok = false ∨ t.done = size then pure t
      else
        let some next ← nextCluster info cluster | pure t
        transferClusters rounds next t
    else pure t

end Transfer

def skipClusters (info : Info) : Nat → Nat → Prog (Option Nat)
  | 0, cluster => pure (some cluster)
  | skip+1, cluster => do
    let some next ← nextCluster info cluster | pure none
    if next = 0 then pure none else skipClusters info skip next

def transfer (info : Info) (v : Vnode) (offset size : Nat) (buffer : Nat → UInt8) (writing : Bool) :
    Prog Progress := do
  let clusterSize := info.sectorsPerCluster * sectorSize
  let skip := offset / clusterSize
  if info.clusterCount ≤ skip then pure ⟨0,0,[]⟩
  else
    let some cluster ← skipClusters info skip v.startCluster | pure ⟨0,0,[]⟩
    transferClusters info size buffer writing (info.clusterCount - skip) cluster
      ⟨0,offset % clusterSize,[]⟩

/-- What a call gives back: its result, the bytes read, the end an append has set, the size the vnode
has cached and the vnode a lookup has made. -/
structure Reply where
  result : Int
  bytes : List UInt8
  endOffset : Option Nat
  length : Nat
  found : Option Vnode

def answer (v : Vnode) (code : Int) : Reply := ⟨code,[],none,v.length,none⟩

def entryCluster (s : Sector) (entry : Nat) : Nat :=
  (2^16 * read16 s (entry+20) + read16 s (entry+26)) % 2^28

def readFileEntry (v : Vnode) : Prog (Except Int (Sector × Nat)) :=
  if v.type ≠ .regular then pure (.error (-22))
  else if v.directoryLba = 0 ∨ sectorSize - 32 < v.directoryOffset then pure (.error (-5))
  else do
    let some directory ← readSector v.directoryLba | pure (.error (-5))
    let entry := v.directoryOffset
    if directory entry = 0 ∨ directory entry = 0xE5 ∨ directory (entry+11) &&& 0x18 ≠ 0 ∨
        entryCluster directory entry ≠ v.startCluster ∨ v.allocatedBytes < read32 directory (entry+28) then
      pure (.error (-5))
    else pure (.ok (directory,read32 directory (entry+28)))

def fat32Read (info : Info) (v : Vnode) (offset size : Nat) (buffer acquired : Bool) : Prog Reply :=
  if v.type ≠ .regular then pure (answer v (-22))
  else if size = 0 then pure (answer v 0)
  else if buffer = false then pure (answer v (-14))
  else if acquired = false then pure (answer v (-16))
  else do
    match ← readFileEntry v with
    | .error code => pure (answer v code)
    | .ok (_,length) =>
      if length ≤ offset then pure ⟨0,[],none,length,none⟩
      else
        let size := min (min size (length - offset)) longMax
        let t ← transfer info v offset size (fun _ => 0) false
        pure ⟨if t.done = 0 then -5 else t.done,t.bytes,none,length,none⟩

def fat32Write (info : Info) (v : Vnode) (offset size : Nat) (buffer : Option (Nat → UInt8))
    (acquired : Bool) : Prog Reply :=
  if v.type ≠ .regular then pure (answer v (-22))
  else if size = 0 then pure (answer v 0)
  else match buffer with
  | none => pure (answer v (-14))
  | some bytes =>
    if uint32Max < offset ∨ uint32Max - offset < size ∨ longMax < size then pure (answer v (-75))
    else if acquired = false then pure (answer v (-16))
    else do
      match ← readFileEntry v with
      | .error code => pure (answer v code)
      | .ok (directory,length) =>
        if length < offset then pure ⟨-95,[],none,length,none⟩
        else if v.allocatedBytes ≤ offset then pure ⟨-28,[],none,length,none⟩
        else
          let size := min size (v.allocatedBytes - offset)
          let t ← transfer info v offset size bytes true
          if t.done = 0 then pure ⟨-5,[],none,length,none⟩
          else if offset + t.done ≤ length then pure ⟨t.done,[],none,length,none⟩
          else
            -- the data is there before the new end is published
            let ok ← writeSector v.directoryLba
              (write32 directory (v.directoryOffset+28) (u32 (offset + t.done)))
            if ok = false then
              let acknowledged := length - offset
              pure ⟨if acknowledged = 0 then -5 else acknowledged,[],none,length,none⟩
            else pure ⟨t.done,[],none,offset + t.done,none⟩

def fat32Append (info : Info) (v : Vnode) (size : Nat) (buffer : Option (Nat → UInt8))
    (acquired : Bool) : Prog Reply :=
  if v.type ≠ .regular then pure (answer v (-22))
  else if size = 0 then pure (answer v 0)
  else match buffer with
  | none => pure (answer v (-14))
  | some bytes =>
    if longMax < size then pure (answer v (-75))
    else if acquired = false then pure (answer v (-16))
    else do
      match ← readFileEntry v with
      | .error code => pure (answer v code)
      | .ok (directory,offset) =>
        let capacity := min v.allocatedBytes uint32Max
        if longMax ≤ offset then pure ⟨-75,[],none,offset,none⟩
        else if capacity ≤ offset then pure ⟨-28,[],none,offset,none⟩
        else
          let available := min (capacity - offset) (longMax - offset)
          let t ← transfer info v offset (min size available) bytes true
          if t.done = 0 then pure ⟨-5,[],none,offset,none⟩
          else
            let ok ← writeSector v.directoryLba
              (write32 directory (v.directoryOffset+28) (u32 (offset + t.done)))
            if ok = false then pure ⟨-5,[],none,offset,none⟩
            else pure ⟨t.done,[],some (offset + t.done),offset + t.done,none⟩

def fat32RefreshMetadata (v : Vnode) (acquired : Bool) : Prog Reply :=
  if acquired = false then pure (answer v (-16))
  else do
    match ← readFileEntry v with
    | .error code => pure (answer v code)
    | .ok (_,length) => pure ⟨0,[],none,length,none⟩

def fat32Truncate (v : Vnode) (length : Nat) (acquired : Bool) : Prog Reply :=
  if acquired = false then pure (answer v (-16))
  else do
    match ← readFileEntry v with
    | .error code => pure (answer v code)
    | .ok (directory,previous) =>
      if previous < length then pure ⟨-95,[],none,previous,none⟩
      else if length = previous then
        let ok ← flushCache
        pure ⟨if ok then 0 else -5,[],none,previous,none⟩
      else
        let ok ← writeSector v.directoryLba (write32 directory (v.directoryOffset+28) (u32 length))
        if ok = false then pure ⟨-5,[],none,previous,none⟩
        else pure ⟨0,[],none,length,none⟩

def fat32Fsync (v : Vnode) (acquired : Bool) : Prog Reply :=
  if acquired = false then pure (answer v (-16))
  else if v.type = .regular then do
    match ← readFileEntry v with
    | .error code => pure (answer v code)
    | .ok (_,length) =>
      let ok ← flushCache
      if ok = false then pure (answer v (-5)) else pure ⟨0,[],none,length,none⟩
  else do
    let ok ← flushCache
    pure (answer v (if ok then 0 else -5))

def upper (c : UInt8) : UInt8 := if 97 ≤ c ∧ c ≤ 122 then c - 97 + 65 else c

def pad (n : Nat) (cs : List UInt8) : List UInt8 := cs ++ List.replicate (n - cs.length) 32

/-- The loop of `short_name`; the end of the list and a zero byte both end the name. -/
def shortNameLoop : Nat → List UInt8 → List UInt8 → List UInt8 → Bool → Except Int (List UInt8)
  | 0, _, _, _, _ => .error (-36)
  | rounds+1, cs, base, extension, dot =>
    let c := cs.headD 0
    if c = 0 then if base = [] then .error (-22) else .ok (pad 8 base ++ pad 3 extension)
    else if c = 47 then .error (-22)
    else if c = 46 then
      if base = [] ∨ dot = true then .error (-22)
      else shortNameLoop rounds cs.tail base extension true
    else if (dot = false ∧ base.length = 8) ∨ (dot = true ∧ extension.length = 3) then .error (-36)
    else if dot = true then shortNameLoop rounds cs.tail base (extension ++ [upper c]) dot
    else shortNameLoop rounds cs.tail (base ++ [upper c]) extension dot

def shortName (name : List UInt8) : Except Int (List UInt8) := shortNameLoop 13 name [] [] false

inductive Scan where
  | absent
  | ended
  | found (entry : Nat)
  deriving DecidableEq

/-- The entries of one directory sector, up to the one with the name or to the end mark. -/
def scanEntries (s : Sector) (target : List UInt8) : Nat → Nat → Scan
  | 0, _ => .absent
  | rounds+1, entry =>
    if s entry = 0 then .ended
    else if s entry = 0xE5 ∨ s (entry+11) = 0x0F ∨ s (entry+11) &&& 0x08 ≠ 0 ∨
        (List.range 11).map (fun j => s (entry+j)) ≠ target then scanEntries s target rounds (entry+32)
    else .found entry

def makeNode (start capacity length : Nat) (type : FileType) (lba entry : Nat) : Vnode :=
  ⟨type,start,capacity,lba,entry,length⟩

def entryType (s : Sector) (entry : Nat) : FileType :=
  if s (entry+11) &&& 0x10 ≠ 0 then .directory else .regular

/-- What `fat32_lookup` does with the entry it has found. -/
def openEntry (info : Info) (s : Sector) (lba entry : Nat) (allocated : Bool) : Prog (Except Int Vnode) :=
  let start := entryCluster s entry
  let type := entryType s entry
  let length := read32 s (entry+28)
  if start = 0 ∧ (type = .directory ∨ length ≠ 0) then pure (.error (-5))
  else do
    let some capacity ← chainCapacity info start | pure (.error (-5))
    if capacity < length then pure (.error (-5))
    else if allocated = false then pure (.error (-12))
    else pure (.ok (makeNode start capacity length type lba entry))

/-- The sectors of one cluster of the directory; nothing, if the search goes on after them. -/
def lookupSectors (info : Info) (target : List UInt8) (allocated : Bool) (lba : Nat) :
    Nat → Nat → Prog (Option (Except Int Vnode))
  | 0, _ => pure none
  | rounds+1, sec => do
    let some s ← readSector (u32 (lba + sec)) | pure (some (.error (-5)))
    match scanEntries s target 16 0 with
    | .ended => pure (some (.error (-2)))
    | .found entry =>
      let r ← openEntry info s (u32 (lba + sec)) entry allocated
      pure (some r)
    | .absent => lookupSectors info target allocated lba rounds (sec+1)

def lookupClusters (info : Info) (target : List UInt8) (allocated : Bool) :
    Nat → Nat → Prog (Except Int Vnode)
  | 0, _ => pure (.error (-5))
  | rounds+1, cluster =>
    if validCluster info cluster then do
      match ← lookupSectors info target allocated (clusterToLba info cluster)
          info.sectorsPerCluster 0 with
      | some r => pure r
      | none =>
        let some next ← nextCluster info cluster | pure (.error (-5))
        if next = 0 then pure (.error (-2)) else lookupClusters info target allocated rounds next
    else pure (.error (-5))

def fat32Lookup (info : Info) (v : Vnode) (name : List UInt8) (allocated acquired : Bool) :
    Prog (Except Int Vnode) :=
  if v.type ≠ .directory then pure (.error (-20))
  else match shortName name with
  | .error code => pure (.error code)
  | .ok target =>
    if acquired = false then pure (.error (-16))
    else lookupClusters info target allocated info.clusterCount v.startCluster

namespace Bpb

def sectorsPerCluster (b : Sector) : Nat := (b 13).toNat
def reserved (b : Sector) : Nat := read16 b 14
def fats (b : Sector) : Nat := (b 16).toNat
def sectorsPerFat (b : Sector) : Nat := read32 b 36
def total (b : Sector) : Nat := if read16 b 19 ≠ 0 then read16 b 19 else read32 b 32
def metadata (b : Sector) : Nat := reserved b + fats b * sectorsPerFat b
def rootCluster (b : Sector) : Nat := read32 b 44 % 2^28

def rejected (b : Sector) (partition : Nat) : Bool :=
  let flags := read16 b 40
  let n := sectorsPerCluster b
  decide (b 510 ≠ 0x55 ∨ b 511 ≠ 0xAA ∨ read16 b 11 ≠ sectorSize ∨ n = 0 ∨ 128 < n ∨
    n &&& (n-1) ≠ 0 ∨ reserved b = 0 ∨ fats b = 0 ∨ 2 < fats b ∨ sectorsPerFat b = 0 ∨
    total b ≤ metadata b ∨ uint32Max - partition < total b ∨ read16 b 17 ≠ 0 ∨ read16 b 22 ≠ 0 ∨
    read16 b 42 ≠ 0 ∨ (flags &&& 0x80 ≠ 0 ∧ flags &&& 0x0F ≠ 0))

def parsed (b : Sector) (partition : Nat) : Info where
  fatLba := u32 (partition + reserved b)
  dataLba := u32 (partition + metadata b)
  clusterCount := u32 ((total b - metadata b) / sectorsPerCluster b)
  sectorsPerCluster := sectorsPerCluster b

end Bpb

def mount (partition : Nat) (allocated acquired : Bool) : Prog (Option (Info × Vnode)) :=
  if acquired = false then pure none
  else do
    let some b ← readSector partition | pure none
    if Bpb.rejected b partition then pure none
    else
      let info := Bpb.parsed b partition
      if info.clusterCount = 0 ∨ 0x0FFFFFF0 ≤ u32 (info.clusterCount + 1) ∨
          Bpb.sectorsPerFat b * (sectorSize / 4) < info.clusterCount + 2 then pure none
      else if validCluster info (Bpb.rootCluster b) then
        let some capacity ← chainCapacity info (Bpb.rootCluster b) | pure none
        if allocated = false then pure none
        else pure (some (info,makeNode (Bpb.rootCluster b) capacity 0 .directory 0 0))
      else pure none

inductive Call where
  | lookup (name : List UInt8) (allocated : Bool)
  | read (offset size : Nat) (buffer : Bool)
  | write (offset size : Nat) (buffer : Option (Nat → UInt8))
  | append (size : Nat) (buffer : Option (Nat → UInt8))
  | truncate (length : Nat)
  | refreshMetadata
  | fsync

def Call.program (info : Info) (v : Vnode) (acquired : Bool) : Call → Prog Reply
  | .lookup name allocated => do
    match ← fat32Lookup info v name allocated acquired with
    | .error code => pure (answer v code)
    | .ok child => pure ⟨0,[],none,v.length,some child⟩
  | .read offset size buffer => fat32Read info v offset size buffer acquired
  | .write offset size buffer => fat32Write info v offset size buffer acquired
  | .append size buffer => fat32Append info v size buffer acquired
  | .truncate length => fat32Truncate v length acquired
  | .refreshMetadata => fat32RefreshMetadata v acquired
  | .fsync => fat32Fsync v acquired

/-- A call on the vnode of that number, whether it gets the reservation, and what becomes of its
commands. -/
structure Event where
  node : Nat
  call : Call
  acquired : Bool
  fates : List Fate

/-- A call that was made, on the vnode as it was, with its reply and its commands. -/
structure Done where
  vnode : Vnode
  event : Event
  reply : Reply
  trace : List (Access Sector)

structure Volume where
  disk : Disk
  nodes : List Vnode
  log : List Done

def step (info : Info) (w : Volume) (e : Event) : Volume :=
  match w.nodes[e.node]? with
  | none => w
  | some v =>
    let r := (e.call.program info v e.acquired).exec w.disk e.fates
    { disk := r.disk
      nodes := w.nodes.set e.node { v with length := r.value.length } ++ r.value.found.toList
      log := w.log ++ [⟨v,e,r.value,r.trace⟩] }

def machine (info : Info) (root : Vnode) (disk : Disk) : Machine Volume Event where
  initial := ⟨disk,[root],[]⟩
  step := step info

end Rucux.Vfs.Fat32
