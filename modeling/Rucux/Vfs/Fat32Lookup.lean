import Rucux.Vfs.Fat32Layout

namespace Rucux.Vfs.Fat32
open Rucux.Lib Rucux.Lib.Io

/-- The chain of a vnode, as it was counted when the vnode was made. -/
structure Counted (info : Info) (d : Disk) (v : Vnode) (cs : List Nat) : Prop where
  chain : Chain info d v.startCluster cs
  length_le : cs.length ≤ info.clusterCount
  capacity : v.allocatedBytes = cs.length * clusterBytes info

def eof (d : Disk) (v : Vnode) : Nat := read32 (d v.directoryLba) (v.directoryOffset+28)

structure Intact (d : Disk) (v : Vnode) : Prop where
  regular : v.type = .regular
  placed : v.directoryLba ≠ 0 ∧ v.directoryOffset ≤ sectorSize - 32
  used : d v.directoryLba v.directoryOffset ≠ 0 ∧ d v.directoryLba v.directoryOffset ≠ 0xE5
  file : d v.directoryLba (v.directoryOffset+11) &&& 0x18 = 0
  start : entryCluster (d v.directoryLba) v.directoryOffset = v.startCluster
  eof_le : eof d v ≤ v.allocatedBytes

/-- The disk once the size `n` is put into the directory sector read before. -/
def published (d : Disk) (v : Vnode) (d' : Disk) (n : Nat) : Disk :=
  Function.update d' v.directoryLba (write32 (d v.directoryLba) (v.directoryOffset+28) n)

/-- The terms allow what operations on the vnode do before they write. -/
structure Permitted (info : Info) (v : Vnode) (d : Disk) (E : Terms Sector) : Prop
    extends Readable info E where
  entry : v.type = .regular → E.mayRead v.directoryLba
  steady : E.safe d

structure Clear (E : Terms Sector) (acquired : Bool) (d : Disk) (v : Vnode) : Prop where
  acquired : acquired = true
  reads : E.readFails = false
  intact : Intact d v

theorem read32_lt (s : Sector) (p : Nat) : read32 s p < 2^32 := by
  have h0 := (s p).toNat_lt
  have h1 := (s (p+1)).toNat_lt
  have h2 := (s (p+2)).toNat_lt
  have h3 := (s (p+3)).toNat_lt
  simp only [read32]
  omega

section
variable {info : Info} {v : Vnode} {cs : List Nat} {d : Disk} {E : Terms Sector} {acquired : Bool}

theorem readFileEntry_meets (hr : v.type = .regular → E.mayRead v.directoryLba) (hs : E.safe d) :
    (readFileEntry v).Meets E d fun r d' => d' = d ∧
      (r = .ok (d v.directoryLba,eof d v) ∧ v.type = .regular ∧ eof d v ≤ v.allocatedBytes ∨
        ∃ code, r = .error code ∧ code < 0 ∧ (E.readFails = false → ¬Intact d v)) := by
  refine meets_ite (fun ht => ?_) fun ht => ?_
  · exact meets_pure hs ⟨rfl,.inr ⟨_,rfl,by decide,fun _ h => ht h.regular⟩⟩
  have ht : v.type = .regular := not_not.mp ht
  refine meets_ite (fun hplace => ?_) fun hplace => ?_
  · refine meets_pure hs ⟨rfl,.inr ⟨_,rfl,by decide,fun _ h => ?_⟩⟩
    have := h.placed
    omega
  refine meets_read (hr ht) (fun hf => ?_) (meets_ite (fun hbad => ?_) fun hgood => ?_)
  · exact meets_pure hs ⟨rfl,.inr ⟨_,rfl,by decide,fun h => by rw [hf] at h; cases h⟩⟩
  · refine meets_pure hs ⟨rfl,.inr ⟨_,rfl,by decide,fun _ h => ?_⟩⟩
    rcases hbad with h1 | h1 | h1 | h1 | h1
    · exact h.used.1 h1
    · exact h.used.2 h1
    · exact h1 h.file
    · exact h1 h.start
    · exact absurd h.eof_le (Nat.not_le.mpr h1)
  · simp only [not_or,not_lt] at hgood
    exact meets_pure hs ⟨rfl,.inl ⟨rfl,ht,hgood.2.2.2.2⟩⟩

def ReadEffect (info : Info) (cs : List Nat) (v : Vnode) (d : Disk) (offset size : Nat) (r : Reply) :
    Prop :=
  r.result ≤ 0 ∨ ∃ n : Nat, r.result = n ∧ 0 < n ∧ n ≤ size ∧ offset + n ≤ eof d v ∧
    r.bytes = (List.range n).map fun j => fileByte info cs d (offset + j)

theorem fat32Read_meets (hl : Layout info) (hn : Counted info d v cs) (hp : Permitted info v d E)
    (offset size : Nat) (buffer : Bool) :
    (fat32Read info v offset size buffer acquired).Meets E d fun r d' =>
      d' = d ∧ r.found = none ∧ ReadEffect info cs v d offset size r := by
  have hs := hp.steady
  have hno : ∀ code : Int, code ≤ 0 → (pure (answer v code) : Prog Reply).Meets E d fun r d' =>
      d' = d ∧ r.found = none ∧ ReadEffect info cs v d offset size r :=
    fun code hc => meets_pure hs ⟨rfl,rfl,.inl hc⟩
  refine meets_ite (fun _ => hno _ (by decide)) fun _ => ?_
  refine meets_ite (fun _ => hno _ (by decide)) fun hsize0 => ?_
  refine meets_ite (fun _ => hno _ (by decide)) fun _ => ?_
  refine meets_ite (fun _ => hno _ (by decide)) fun _ => ?_
  refine (readFileEntry_meets hp.entry hs).bind ?_
  rintro r d' ⟨rfl,⟨rfl,ht,hle⟩ | ⟨code,rfl,hcode,_⟩⟩
  case inr => exact hno code (by omega)
  refine meets_ite (fun _ => meets_pure hs ⟨rfl,rfl,.inl (Int.le_refl 0)⟩) fun hoff => ?_
  have hcap := hn.capacity
  generalize hsz : min (min size (eof d' v - offset)) longMax = size'
  have hfacts : 0 < size' ∧ size' ≤ size ∧ offset + size' ≤ eof d' v := by
    simp only [longMax] at hsz
    omega
  refine (transfer_meets hl hn.chain hn.length_le ⟨hp.toReadable,fun h => (by cases h),hs,
    fun h => (by cases h)⟩ (by omega) hfacts.1).bind ?_
  rintro t d'' ⟨hm,_⟩
  obtain ⟨rfl,hbytes⟩ := hm.kept rfl
  refine meets_pure hs ⟨rfl,rfl,?_⟩
  have hle' := hm.done_le
  by_cases ht0 : t.done = 0
  · exact .inl (by simp [ht0])
  · exact .inr ⟨t.done,by simp [ht0],by omega,by omega,by omega,hbytes⟩

/-- The disk after a transfer to the file of which `ack` bytes are acknowledged: the data is there, and
either the new end is published or nothing behind the old end is acknowledged. -/
def Grown (info : Info) (cs : List Nat) (v : Vnode) (bytes : Nat → UInt8) (offset size : Nat)
    (d d' : Disk) (ack : Nat) : Prop :=
  ∃ d₁ n, Wrote info cs bytes offset size d d₁ ∧ Stored info cs bytes offset n d₁ ∧ n ≤ size ∧
    ack ≤ n ∧ (ack = n ∨ offset + ack ≤ eof d v) ∧ (d' = d₁ ∧ offset + ack ≤ eof d v ∨
      eof d v < offset + n ∧ d' = published d v d₁ (offset + n))

def countOr5 (ack : Nat) : Int := if ack = 0 then -5 else ack

/-- What the terms ask of a growing call: data may be written, and then the size; the disk is safe
while data is written, and once the size is published. -/
structure Guarded (info : Info) (cs : List Nat) (v : Vnode) (bytes : Nat → UInt8) (offset size : Nat)
    (d : Disk) (E : Terms Sector) : Prop where
  between : ∀ d₁, Wrote info cs bytes offset size d d₁ → E.safe d₁
  sectors : ∀ d₁, Wrote info cs bytes offset size d d₁ →
    ∀ q < cs.length * info.sectorsPerCluster, ∀ s, E.mayWrite d₁ (fileSector info cs q) s
  directory : ∀ d₁, Wrote info cs bytes offset size d d₁ → ∀ s, E.mayWrite d₁ v.directoryLba s
  behind : ∀ d₁ n, Wrote info cs bytes offset size d d₁ → Stored info cs bytes offset n d₁ → n ≤ size →
    eof d v < offset + n → (n = size ∨ Fails E true) → E.safe (published d v d₁ (offset + n))

def WriteEffect (info : Info) (cs : List Nat) (v : Vnode) (offset size : Nat)
    (buffer : Option (Nat → UInt8)) (E : Terms Sector) (acquired : Bool) (d : Disk) (r : Reply)
    (d' : Disk) : Prop :=
  (d' = d ∧ r.result ≤ 0 ∧ (Clear E acquired d v → 0 < size → buffer.isSome → offset + size < 2^32 →
    eof d v < offset ∧ r.result = -95 ∨ offset ≤ eof d v ∧ v.allocatedBytes ≤ offset ∧ r.result = -28)) ∨
  ∃ bytes ack, v.type = .regular ∧ buffer = some bytes ∧ offset ≤ eof d v ∧
    offset < v.allocatedBytes ∧ offset + size < 2^32 ∧
    Grown info cs v bytes offset (min size (v.allocatedBytes - offset)) d d' ack ∧
    r.result = countOr5 ack

theorem fat32Write_meets (hl : Layout info) (hn : Counted info d v cs) (hp : Permitted info v d E)
    {offset size : Nat} {buffer : Option (Nat → UInt8)}
    (hg : v.type = .regular → ∀ bytes, buffer = some bytes → offset ≤ eof d v →
      offset < v.allocatedBytes → offset + size < 2^32 →
      Guarded info cs v bytes offset (min size (v.allocatedBytes - offset)) d E) :
    (fat32Write info v offset size buffer acquired).Meets E d fun r d' =>
      r.found = none ∧ WriteEffect info cs v offset size buffer E acquired d r d' := by
  have hs := hp.steady
  have hno : ∀ code : Int, code ≤ 0 → (¬(Clear E acquired d v ∧ 0 < size ∧ buffer.isSome ∧
        offset + size < 2^32)) → (pure (answer v code) : Prog Reply).Meets E d fun r d' =>
      r.found = none ∧ WriteEffect info cs v offset size buffer E acquired d r d' :=
    fun code hc hargs => meets_pure hs ⟨rfl,.inl ⟨rfl,hc,fun h1 h2 h3 h4 => absurd ⟨h1,h2,h3,h4⟩ hargs⟩⟩
  refine meets_ite (fun ht => hno _ (by decide) fun h => ht h.1.intact.regular) fun _ => ?_
  refine meets_ite (fun h0 => hno _ (by decide) fun h => by omega) fun hsize0 => ?_
  cases buffer with
  | none => exact hno _ (by decide) fun h => by simp at h
  | some bytes =>
  refine meets_ite (fun hbig => hno _ (by decide) fun h => ?_) fun hbig => ?_
  · simp only [uint32Max,longMax] at hbig; omega
  refine meets_ite (fun hacq => hno _ (by decide) fun h => ?_) fun _ => ?_
  · simp [h.1.acquired] at hacq
  refine (readFileEntry_meets hp.entry hs).bind ?_
  rintro r d' ⟨rfl,⟨rfl,ht,hle⟩ | ⟨code,rfl,hcode,hbad⟩⟩
  case inr => exact hno code (by omega) fun h => hbad h.1.reads h.1.intact
  refine meets_ite (fun hgap => ?_) fun hgap => meets_ite (fun hfull => ?_) fun hfull => ?_
  · exact meets_pure hs ⟨rfl,.inl ⟨rfl,by simp,fun _ _ _ _ => .inl ⟨hgap,rfl⟩⟩⟩
  · exact meets_pure hs ⟨rfl,.inl ⟨rfl,by simp,fun _ _ _ _ => .inr ⟨by omega,hfull,rfl⟩⟩⟩
  have hcap := hn.capacity
  have h32 : offset + size < 2^32 := by simp only [uint32Max] at hbig; omega
  obtain ⟨hbetween,hsectors,hdirectory,hbehind⟩ := hg ht bytes rfl (by omega) (by omega) h32
  generalize hsz : min size (v.allocatedBytes - offset) = size' at hbetween hsectors hdirectory hbehind
  have hsz' : 0 < size' ∧ offset + size' ≤ v.allocatedBytes ∧ size' ≤ size := by omega
  refine (transfer_meets hl hn.chain hn.length_le ⟨hp.toReadable,fun _ => hsectors,hs,
    fun _ => hbetween⟩ (by omega) hsz'.1).bind ?_
  rintro t d₁ ⟨hm,hend⟩
  obtain ⟨hw,hst⟩ := hm.wrote rfl
  have hdone := hm.done_le
  have hn5 : ∀ {n : Nat}, n ≠ 0 → (n : Int) = countOr5 n := fun h => by simp [countOr5,h]
  -- the call ends with `ack` bytes acknowledged
  have hyes : ∀ {d'' : Disk} (ack : Nat) {code : Int} {length : Nat}, code = countOr5 ack → E.safe d'' →
      Grown info cs v bytes offset size' d' d'' ack →
      (pure ⟨code,[],none,length,none⟩ : Prog Reply).Meets E d'' fun r d'' =>
        r.found = none ∧ WriteEffect info cs v offset size (some bytes) E acquired d' r d'' :=
    fun ack _ _ hcode hsafe hgrown =>
      meets_pure hsafe ⟨rfl,.inr ⟨bytes,ack,ht,rfl,by omega,by omega,h32,hsz ▸ hgrown,hcode⟩⟩
  refine meets_ite (fun h0 => ?_) fun h0 => meets_ite (fun hin => ?_) fun hout => ?_
  · exact hyes 0 rfl (hbetween _ hw) ⟨d₁,t.done,hw,hst,hdone,Nat.zero_le _,.inr (by omega),.inl ⟨rfl,by omega⟩⟩
  · exact hyes t.done (hn5 h0) (hbetween _ hw) ⟨d₁,t.done,hw,hst,hdone,Nat.le_refl _,.inl rfl,.inl ⟨rfl,hin⟩⟩
  rw [u32_of_lt (by omega : offset + t.done < 2^32)]
  have hsafe := hbehind d₁ t.done hw hst hdone (by omega) hend
  refine meets_write (hdirectory _ hw _) (hbetween _ hw) ?_ fun _ => ⟨?_,?_⟩
  · exact hyes t.done (hn5 h0) hsafe ⟨d₁,t.done,hw,hst,hdone,Nat.le_refl _,.inl rfl,.inr ⟨by omega,rfl⟩⟩
  · exact hyes (eof d' v - offset) rfl (hbetween _ hw)
      ⟨d₁,t.done,hw,hst,hdone,by omega,.inr (by omega),.inl ⟨rfl,by omega⟩⟩
  · exact hyes (eof d' v - offset) rfl hsafe ⟨d₁,t.done,hw,hst,hdone,by omega,.inr (by omega),.inr ⟨by omega,rfl⟩⟩

/-- What an append may come back with. It is a write at the end, of which nothing is acknowledged
unless the new end is published. -/
def AppendEffect (info : Info) (cs : List Nat) (v : Vnode) (size : Nat)
    (buffer : Option (Nat → UInt8)) (d : Disk) (r : Reply) (d' : Disk) : Prop :=
  (d' = d ∧ r.result ≤ 0) ∨
  ∃ bytes ack, v.type = .regular ∧ buffer = some bytes ∧
    Grown info cs v bytes (eof d v) (min size (min v.allocatedBytes uint32Max - eof d v)) d d' ack ∧
    r.result = countOr5 ack ∧ (0 < ack → r.endOffset = some (eof d v + ack))

theorem append_room {capacity last size size' : Nat} (hroom : ¬min capacity uint32Max ≤ last)
    (hsize : size ≠ 0) (hsz : min size (min capacity uint32Max - last) = size') :
    min size (min (min capacity uint32Max - last) (longMax - last)) = size' ∧
      0 < size' ∧ last + size' ≤ capacity ∧ last + size' < 2^32 := by
  have h32 : uint32Max = 4294967295 := rfl
  have h63 : longMax = 9223372036854775807 := rfl
  omega

theorem fat32Append_meets (hl : Layout info) (hn : Counted info d v cs) (hp : Permitted info v d E)
    {size : Nat} {buffer : Option (Nat → UInt8)}
    (hg : v.type = .regular → ∀ bytes, buffer = some bytes → Guarded info cs v bytes (eof d v)
      (min size (min v.allocatedBytes uint32Max - eof d v)) d E) :
    (fat32Append info v size buffer acquired).Meets E d fun r d' =>
      r.found = none ∧ AppendEffect info cs v size buffer d r d' := by
  have hs := hp.steady
  have hno : ∀ {code : Int} {length : Nat}, code ≤ 0 →
      (pure ⟨code,[],none,length,none⟩ : Prog Reply).Meets E d fun r d' =>
        r.found = none ∧ AppendEffect info cs v size buffer d r d' :=
    fun hc => meets_pure hs ⟨rfl,.inl ⟨rfl,hc⟩⟩
  refine meets_ite (fun _ => hno (by decide)) fun hreg => ?_
  refine meets_ite (fun _ => hno (by decide)) fun hsize0 => ?_
  cases buffer with
  | none => exact hno (by decide)
  | some bytes =>
  obtain ⟨hbetween,hsectors,hdirectory,hbehind⟩ := hg (not_not.mp hreg) bytes rfl
  refine meets_ite (fun _ => hno (by decide)) fun _ => ?_
  refine meets_ite (fun _ => hno (by decide)) fun _ => ?_
  refine (readFileEntry_meets hp.entry hs).bind ?_
  rintro r d' ⟨rfl,⟨rfl,ht,hle⟩ | ⟨code,rfl,hcode,_⟩⟩
  case inr => exact hno (by omega)
  refine meets_ite (fun _ => hno (by decide)) fun _ => ?_
  refine meets_ite (fun _ => hno (by decide)) fun hroom => ?_
  have hcap := hn.capacity
  generalize hsz : min size (min v.allocatedBytes uint32Max - eof d' v) = size' at hbetween hsectors hdirectory hbehind
  obtain ⟨hlong,hsz'⟩ := append_room hroom hsize0 hsz
  dsimp only
  rw [hlong]
  refine (transfer_meets hl hn.chain hn.length_le ⟨hp.toReadable,fun _ => hsectors,hs,
    fun _ => hbetween⟩ (by omega) hsz'.1).bind ?_
  rintro t d₁ ⟨hm,hend⟩
  obtain ⟨hw,hst⟩ := hm.wrote rfl
  have hdone := hm.done_le
  have hyes : ∀ {d'' : Disk} (ack : Nat) {code : Int} {length : Nat} {last : Option Nat},
      code = countOr5 ack → (0 < ack → last = some (eof d' v + ack)) → E.safe d'' →
      Grown info cs v bytes (eof d' v) size' d' d'' ack →
      (pure ⟨code,[],last,length,none⟩ : Prog Reply).Meets E d'' fun r d'' =>
        r.found = none ∧ AppendEffect info cs v size (some bytes) d' r d'' :=
    fun ack _ _ _ hcode hlast hsafe hgrown =>
      meets_pure hsafe ⟨rfl,.inr ⟨bytes,ack,ht,rfl,hsz ▸ hgrown,hcode,hlast⟩⟩
  have hzero : ∀ {last : Option Nat}, 0 < 0 → last = some (eof d' v + 0) :=
    fun h => absurd h (Nat.lt_irrefl 0)
  refine meets_ite (fun h0 => ?_) fun h0 => ?_
  · exact hyes 0 rfl hzero (hbetween _ hw) ⟨d₁,t.done,hw,hst,hdone,Nat.zero_le _,.inr (by omega),.inl ⟨rfl,by omega⟩⟩
  rw [u32_of_lt (by omega : eof d' v + t.done < 2^32)]
  have hsafe := hbehind d₁ t.done hw hst hdone (by omega) hend
  refine meets_write (hdirectory _ hw _) (hbetween _ hw) ?_ fun _ => ⟨?_,?_⟩
  · exact hyes t.done (by simp [countOr5,h0]) (fun _ => rfl) hsafe
      ⟨d₁,t.done,hw,hst,hdone,Nat.le_refl _,.inl rfl,.inr ⟨by omega,rfl⟩⟩
  · exact hyes 0 rfl hzero (hbetween _ hw) ⟨d₁,t.done,hw,hst,hdone,Nat.zero_le _,.inr (by omega),.inl ⟨rfl,by omega⟩⟩
  · exact hyes 0 rfl hzero hsafe ⟨d₁,t.done,hw,hst,hdone,Nat.zero_le _,.inr (by omega),.inr ⟨by omega,rfl⟩⟩

/-- What a truncation may come back with: an end that is not behind the old one, or nothing. -/
def TruncateEffect (v : Vnode) (length : Nat) (E : Terms Sector) (acquired : Bool) (d : Disk)
    (r : Reply) (d' : Disk) : Prop :=
  r.result ≤ 0 ∧ (d' = d ∧ (r.result = 0 → length = eof d v) ∨
      v.type = .regular ∧ length < eof d v ∧ d' = published d v d length) ∧
    (Clear E acquired d v → eof d v < length → r.result = -95)

section
variable (hp : Permitted info v d E)
include hp

theorem fat32Truncate_meets {length : Nat}
    (ha : v.type = .regular → length < eof d v → E.safe (published d v d length) ∧ ∀ s, E.mayWrite d v.directoryLba s) :
    (fat32Truncate v length acquired).Meets E d fun r d' =>
      r.found = none ∧ TruncateEffect v length E acquired d r d' := by
  have hs := hp.steady
  have hno : ∀ code : Int, code < 0 → ¬Clear E acquired d v →
      (pure (answer v code) : Prog Reply).Meets E d fun r d' =>
        r.found = none ∧ TruncateEffect v length E acquired d r d' := by
    intro code hc hclear
    refine meets_pure hs ⟨rfl,le_of_lt hc,.inl ⟨rfl,fun h => ?_⟩,fun h => absurd h hclear⟩
    simp only [answer] at h
    omega
  refine meets_ite (fun hacq => hno _ (by decide) fun h => ?_) fun _ => ?_
  · simp [h.acquired] at hacq
  refine (readFileEntry_meets hp.entry hs).bind ?_
  rintro r d' ⟨rfl,⟨rfl,ht,hle⟩ | ⟨code,rfl,hcode,hbad⟩⟩
  case inr => exact hno code hcode fun h => hbad h.reads h.intact
  refine meets_ite (fun hgrow => ?_) fun hgrow => meets_ite (fun heq => ?_) fun hne => ?_
  · exact meets_pure hs ⟨rfl,by simp,.inl ⟨rfl,by simp⟩,fun _ _ => rfl⟩
  · refine meets_flush ?_ fun _ => ?_
    · exact meets_pure hs ⟨rfl,by simp,.inl ⟨rfl,fun _ => heq⟩,fun _ h => by omega⟩
    · exact meets_pure hs ⟨rfl,by simp,.inl ⟨rfl,by simp⟩,fun _ h => by omega⟩
  have hlt : length < eof d' v := by omega
  rw [u32_of_lt (lt_trans hlt (read32_lt _ _))]
  obtain ⟨hsafe,hdirectory⟩ := ha ht hlt
  refine meets_write (hdirectory _) hs ?_ fun _ => ⟨?_,?_⟩
  · exact meets_pure hsafe ⟨rfl,by simp,.inr ⟨ht,hlt,rfl⟩,fun _ h => by omega⟩
  · exact meets_pure hs ⟨rfl,by simp,.inl ⟨rfl,by simp⟩,fun _ h => by omega⟩
  · exact meets_pure hsafe ⟨rfl,by simp,.inr ⟨ht,hlt,rfl⟩,fun _ h => by omega⟩

theorem fat32RefreshMetadata_meets :
    (fat32RefreshMetadata v acquired).Meets E d fun r d' => d' = d ∧ r.found = none := by
  have hs := hp.steady
  refine meets_ite (fun _ => meets_pure hs ⟨rfl,rfl⟩) fun _ => ?_
  refine (readFileEntry_meets hp.entry hs).bind ?_
  rintro r d' ⟨rfl,⟨rfl,_⟩ | ⟨code,rfl,_⟩⟩ <;> exact meets_pure hs ⟨rfl,rfl⟩

theorem fat32Fsync_meets : (fat32Fsync v acquired).Meets E d fun r d' => d' = d ∧ r.found = none := by
  have hs := hp.steady
  refine meets_ite (fun _ => meets_pure hs ⟨rfl,rfl⟩) fun _ => meets_ite (fun _ => ?_) fun _ => ?_
  · refine (readFileEntry_meets hp.entry hs).bind ?_
    rintro r d' ⟨rfl,⟨rfl,_⟩ | ⟨code,rfl,_⟩⟩
    · exact meets_flush (meets_pure hs ⟨rfl,rfl⟩) fun _ => meets_pure hs ⟨rfl,rfl⟩
    · exact meets_pure hs ⟨rfl,rfl⟩
  · exact meets_flush (meets_pure hs ⟨rfl,rfl⟩) fun _ => meets_pure hs ⟨rfl,rfl⟩

end

end

/-- The place of the entry with the name in one cluster of a directory; `some none` is the end mark. -/
def searchCluster (info : Info) (d : Disk) (target : List UInt8) (c : Nat) :
    Nat → Nat → Option (Option (Nat × Nat))
  | 0, _ => none
  | rounds+1, sec =>
    match scanEntries (d (clusterSector info c sec)) target 16 0 with
    | .ended => some none
    | .found entry => some (some (clusterSector info c sec,entry))
    | .absent => searchCluster info d target c rounds (sec+1)

def search (info : Info) (d : Disk) (target : List UInt8) : List Nat → Option (Nat × Nat)
  | [] => none
  | c :: cs =>
    match searchCluster info d target c info.sectorsPerCluster 0 with
    | some r => r
    | none => search info d target cs

def opened (info : Info) (d : Disk) (lba entry : Nat) (allocated : Bool) : Except Int Vnode :=
  let start := entryCluster (d lba) entry
  let length := read32 (d lba) (entry+28)
  if start = 0 ∧ (entryType (d lba) entry = .directory ∨ length ≠ 0) then .error (-5)
  else match chain? info d start with
  | none => .error (-5)
  | some cs =>
    if cs.length * clusterBytes info < length then .error (-5)
    else if allocated = false then .error (-12)
    else .ok (makeNode start (cs.length * clusterBytes info) length (entryType (d lba) entry) lba entry)

def openedAt (info : Info) (d : Disk) (allocated : Bool) : Option (Nat × Nat) → Except Int Vnode
  | none => .error (-2)
  | some (lba,entry) => opened info d lba entry allocated

def found (info : Info) (d : Disk) (ds : List Nat) (target : List UInt8) (allocated : Bool) :
    Except Int Vnode :=
  openedAt info d allocated (search info d target ds)

def lookupResult (info : Info) (d : Disk) (v : Vnode) (ds : List Nat) (name : List UInt8)
    (allocated acquired : Bool) : Except Int Vnode :=
  if v.type ≠ .directory then .error (-20)
  else match shortName name with
  | .error code => .error code
  | .ok target => if acquired = false then .error (-16) else found info d ds target allocated

section Lookup
variable {info : Info} {d : Disk} {E : Terms Sector} {target : List UInt8} {allocated : Bool}

section
variable (hl : Layout info) (hr : Readable info E) (hs : E.safe d)
include hl hr hs

theorem openEntry_meets (lba entry : Nat) :
    (openEntry info (d lba) lba entry allocated).Meets E d fun r d' => d' = d ∧
      (r = opened info d lba entry allocated ∨ r = .error (-5) ∧ E.readFails = true) := by
  simp only [opened]
  refine meets_ite (fun h => ?_) fun h => ?_
  · exact meets_pure hs ⟨rfl,.inl (by rw [if_pos h])⟩
  rw [if_neg h]
  refine (chainCapacity_meets hl hr.table hs _).bind ?_
  rintro r d' ⟨rfl,hr | ⟨rfl,hf⟩⟩
  case inr => exact meets_pure hs ⟨rfl,.inr ⟨rfl,hf⟩⟩
  cases hc : chain? info d' (entryCluster (d' lba) entry) with
  | none =>
    rw [hc] at hr
    subst hr
    exact meets_pure hs ⟨rfl,.inl rfl⟩
  | some cs =>
    rw [hc] at hr
    subst hr
    refine meets_ite (fun h1 => ?_) fun h1 => meets_ite (fun h2 => ?_) fun h2 => ?_
    · exact meets_pure hs ⟨rfl,.inl (by simp only [if_pos h1])⟩
    · exact meets_pure hs ⟨rfl,.inl (by simp only [if_neg h1,if_pos h2])⟩
    · exact meets_pure hs ⟨rfl,.inl (by simp only [if_neg h1,if_neg h2])⟩

theorem lookupSectors_meets {c : Nat} (hc : validCluster info c = true) {rounds sec : Nat}
    (hsec : sec + rounds = info.sectorsPerCluster) :
    (lookupSectors info target allocated (clusterToLba info c) rounds sec).Meets E d fun r d' => d' = d ∧
      (r = (searchCluster info d target c rounds sec).map (openedAt info d allocated) ∨
        r = some (.error (-5)) ∧ E.readFails = true) := by
  induction rounds generalizing sec with
  | zero => exact meets_pure hs ⟨rfl,.inl rfl⟩
  | succ rounds ih =>
    simp only [lookupSectors,hl.sector_lba_eq hc (show sec < info.sectorsPerCluster by omega)]
    refine meets_read (hr.data c sec hc (by omega)) (fun hf => ?_) ?_
    · exact meets_pure hs ⟨rfl,.inr ⟨rfl,hf⟩⟩
    simp only [searchCluster]
    cases scanEntries (d (clusterSector info c sec)) target 16 0 with
    | absent => exact ih (by omega)
    | ended => exact meets_pure hs ⟨rfl,.inl rfl⟩
    | found entry =>
      refine (openEntry_meets hl hr hs _ entry).bind ?_
      rintro r d' ⟨rfl,rfl | ⟨rfl,hf⟩⟩
      · exact meets_pure hs ⟨rfl,.inl rfl⟩
      · exact meets_pure hs ⟨rfl,.inr ⟨rfl,hf⟩⟩

theorem lookupClusters_meets {c rounds : Nat} {ds : List Nat} (hc : Chain info d c ds) (hne : ds ≠ [])
    (hrounds : ds.length ≤ rounds) :
    (lookupClusters info target allocated rounds c).Meets E d fun r d' => d' = d ∧
      (r = found info d ds target allocated ∨ r = .error (-5) ∧ E.readFails = true) := by
  induction ds generalizing c rounds with
  | nil => exact absurd rfl hne
  | cons x xs ih =>
    obtain ⟨rfl,_,n,hn,hxs⟩ := hc
    obtain ⟨rounds,rfl⟩ : ∃ r, rounds = r + 1 := ⟨rounds-1,by simp at hrounds; omega⟩
    have hv := fatNext_valid hn
    simp only [lookupClusters,if_pos hv]
    refine (lookupSectors_meets hl hr hs hv (Nat.zero_add _)).bind ?_
    rintro r d' ⟨rfl,rfl | ⟨rfl,hf⟩⟩
    case inr => exact meets_pure hs ⟨rfl,.inr ⟨rfl,hf⟩⟩
    rw [found,search]
    cases searchCluster info d' target x info.sectorsPerCluster 0 with
    | some r => exact meets_pure hs ⟨rfl,.inl rfl⟩
    | none =>
      refine (nextCluster_meets hl hr.table hs x).bind ?_
      rintro r d'' ⟨rfl,hr' | ⟨rfl,hf⟩⟩
      case inr => exact meets_pure hs ⟨rfl,.inr ⟨rfl,hf⟩⟩
      obtain rfl : r = some n := hr'.trans hn
      cases xs with
      | nil =>
        obtain rfl : n = 0 := hxs
        exact meets_pure hs ⟨rfl,.inl rfl⟩
      | cons y ys =>
        have hn0 : n ≠ 0 := hxs.2.1
        simp only [if_neg hn0]
        exact ih hxs (by simp) (by simpa using hrounds)

theorem fat32Lookup_meets {v : Vnode} {ds : List Nat} (hn : Counted info d v ds)
    (hne : v.type = .directory → ds ≠ []) (name : List UInt8) (allocated acquired : Bool) :
    (fat32Lookup info v name allocated acquired).Meets E d fun r d' => d' = d ∧
      (r = lookupResult info d v ds name allocated acquired ∨ r = .error (-5) ∧ E.readFails = true) := by
  unfold fat32Lookup lookupResult
  refine meets_ite (fun ht => ?_) fun ht => ?_
  · exact meets_pure hs ⟨rfl,.inl (by rw [if_pos ht])⟩
  rw [if_neg ht]
  cases shortName name with
  | error code => exact meets_pure hs ⟨rfl,.inl rfl⟩
  | ok target =>
    refine meets_ite (fun hacq => ?_) fun hacq => ?_
    · exact meets_pure hs ⟨rfl,.inl (by simp only [if_pos hacq])⟩
    simp only [if_neg hacq]
    exact lookupClusters_meets hl hr hs hn.chain (hne (not_not.mp ht)) hn.length_le

end

end Lookup

/-- The name and the marks by which an entry is found. -/
structure Matches (s : Sector) (target : List UInt8) (entry : Nat) : Prop where
  aligned : entry % 32 = 0
  inside : entry ≤ 480
  used : s entry ≠ 0 ∧ s entry ≠ 0xE5
  label : s (entry+11) &&& 0x08 = 0

theorem scanEntries_found {s : Sector} {target : List UInt8} {rounds entry e : Nat}
    (h : scanEntries s target rounds entry = .found e) (ha : entry % 32 = 0)
    (hr : entry + 32 * rounds ≤ 512) : Matches s target e := by
  induction rounds generalizing entry with
  | zero => cases h
  | succ rounds ih =>
    simp only [scanEntries] at h
    split at h
    · cases h
    rename_i h0
    split at h
    · exact ih h (by omega) (by omega)
    rename_i hm
    obtain rfl := Scan.found.inj h
    simp only [not_or,not_not] at hm
    exact ⟨ha,by omega,⟨h0,hm.1⟩,hm.2.2.1⟩

section
variable {info : Info} {d : Disk} {target : List UInt8} {lba e : Nat}

theorem searchCluster_found {c rounds sec : Nat}
    (h : searchCluster info d target c rounds sec = some (some (lba,e)))
    (hsec : sec + rounds = info.sectorsPerCluster) :
    (∃ s < info.sectorsPerCluster, lba = clusterSector info c s) ∧ Matches (d lba) target e := by
  induction rounds generalizing sec with
  | zero => cases h
  | succ rounds ih =>
    simp only [searchCluster] at h
    split at h
    · cases h
    next entry hscan =>
      obtain ⟨rfl,rfl⟩ := h
      exact ⟨⟨sec,by omega,rfl⟩,scanEntries_found hscan rfl (by omega)⟩
    · exact ih h (by omega)

theorem search_found {ds : List Nat} (h : search info d target ds = some (lba,e)) :
    (∃ c ∈ ds, ∃ s < info.sectorsPerCluster, lba = clusterSector info c s) ∧ Matches (d lba) target e := by
  induction ds with
  | nil => cases h
  | cons c cs ih =>
    simp only [search] at h
    split at h
    next r hr =>
      subst h
      obtain ⟨hs,hm⟩ := searchCluster_found hr (Nat.zero_add _)
      exact ⟨⟨c,List.mem_cons_self,hs⟩,hm⟩
    obtain ⟨⟨c',hc',hs⟩,hm⟩ := ih h
    exact ⟨⟨c',List.mem_cons_of_mem _ hc',hs⟩,hm⟩

end

structure Child (info : Info) (d : Disk) (ds : List Nat) (v : Vnode) (cs : List Nat) : Prop where
  counted : Counted info d v cs
  place : ∃ c ∈ ds, ∃ s < info.sectorsPerCluster, v.directoryLba = clusterSector info c s
  aligned : v.directoryOffset % 32 = 0
  inside : v.directoryOffset ≤ 480
  nonempty : v.type = .directory → cs ≠ []
  entry : opened info d v.directoryLba v.directoryOffset true = .ok v
  intact : v.type = .regular → v.directoryLba ≠ 0 → Intact d v

theorem opened_ok {info : Info} {d : Disk} {lba entry : Nat} {allocated : Bool} {v : Vnode}
    (h : opened info d lba entry allocated = .ok v) :
    ∃ cs, Counted info d v cs ∧ v.directoryLba = lba ∧ v.directoryOffset = entry ∧
      v.type = entryType (d lba) entry ∧ v.startCluster = entryCluster (d lba) entry ∧
      v.length = eof d v ∧ eof d v ≤ v.allocatedBytes ∧ (v.type = .directory → cs ≠ []) ∧
      opened info d lba entry true = .ok v := by
  have hall := h
  simp only [opened] at h
  split at h
  · cases h
  rename_i hstart
  split at h
  · cases h
  rename_i cs hcs
  split at h
  · cases h
  rename_i hlen
  split at h
  · cases h
  rename_i ha
  have ha : allocated = true := by simpa using ha
  subst ha
  obtain ⟨hc,hle⟩ := trail?_eq_some.mp hcs
  obtain rfl := Except.ok.inj h
  refine ⟨cs,⟨hc,hle,rfl⟩,rfl,rfl,rfl,rfl,rfl,Nat.not_lt.mp hlen,fun ht hnil => ?_,hall⟩
  subst hnil
  exact hstart ⟨hc,.inl ht⟩

theorem attributes_clear {a : UInt8} (h8 : a &&& 0x08 = 0) (h16 : a &&& 0x10 = 0) : a &&& 0x18 = 0 := by
  have hall : ∀ b : BitVec 8, b &&& 0x08#8 = 0#8 → b &&& 0x10#8 = 0#8 → b &&& 0x18#8 = 0#8 := by decide
  exact UInt8.toBitVec_inj.mp (hall a.toBitVec (congrArg UInt8.toBitVec h8) (congrArg UInt8.toBitVec h16))

theorem found_child {info : Info} {d : Disk} {ds : List Nat} {target : List UInt8} {allocated : Bool}
    {v : Vnode} (h : found info d ds target allocated = .ok v) : ∃ cs, Child info d ds v cs := by
  cases hsearch : search info d target ds with
  | none => rw [found,hsearch] at h; cases h
  | some place =>
    obtain ⟨lba,entry⟩ := place
    rw [found,hsearch] at h
    obtain ⟨hplace,hm⟩ := search_found hsearch
    obtain ⟨cs,hcount,rfl,rfl,htype,hstart,_,hle,hne,hopen⟩ := opened_ok h
    refine ⟨cs,hcount,hplace,hm.aligned,hm.inside,hne,hopen,fun hreg h0 => ?_⟩
    have hdir : d v.directoryLba (v.directoryOffset+11) &&& 0x10 = 0 := by
      by_contra hdir
      rw [entryType,if_pos hdir,hreg] at htype
      cases htype
    exact ⟨hreg,⟨h0,hm.inside⟩,hm.used,attributes_clear hm.label hdir,hstart.symm,hle⟩

def Effect (info : Info) (cs : List Nat) (v : Vnode) (E : Terms Sector) (acquired : Bool) (d : Disk)
    (r : Reply) (d' : Disk) : Call → Prop
  | .lookup _ _ => d' = d ∧ ∀ child, r.found = some child →
      v.type = .directory ∧ ∃ target allocated, found info d cs target allocated = .ok child
  | .read offset size _ => d' = d ∧ r.found = none ∧ ReadEffect info cs v d offset size r
  | .write offset size buffer =>
      r.found = none ∧ WriteEffect info cs v offset size buffer E acquired d r d'
  | .append size buffer => r.found = none ∧ AppendEffect info cs v size buffer d r d'
  | .truncate length => r.found = none ∧ TruncateEffect v length E acquired d r d'
  | .refreshMetadata => d' = d ∧ r.found = none
  | .fsync => d' = d ∧ r.found = none

theorem Effect.found {info : Info} {cs : List Nat} {v child : Vnode} {E : Terms Sector} {acquired : Bool}
    {d d' : Disk} {r : Reply} {call : Call} (h : Effect info cs v E acquired d r d' call)
    (hr : r.found = some child) :
    d' = d ∧ v.type = .directory ∧ ∃ target allocated, found info d cs target allocated = .ok child := by
  have hnone : r.found ≠ none := by simp [hr]
  cases call with
  | lookup name allocated => exact ⟨h.1,h.2 child hr⟩
  | read offset size buffer => exact absurd h.2.1 hnone
  | write offset size buffer => exact absurd h.1 hnone
  | append size buffer => exact absurd h.1 hnone
  | truncate length => exact absurd h.1 hnone
  | refreshMetadata => exact absurd h.2 hnone
  | fsync => exact absurd h.2 hnone

def Allowed (info : Info) (cs : List Nat) (v : Vnode) (d : Disk) (E : Terms Sector) : Call → Prop
  | .write offset size buffer => ∀ bytes, buffer = some bytes → offset ≤ eof d v →
      offset < v.allocatedBytes → offset + size < 2^32 →
      Guarded info cs v bytes offset (min size (v.allocatedBytes - offset)) d E
  | .append size buffer => ∀ bytes, buffer = some bytes → Guarded info cs v bytes (eof d v)
      (min size (min v.allocatedBytes uint32Max - eof d v)) d E
  | .truncate length => length < eof d v →
      E.safe (published d v d length) ∧ ∀ s, E.mayWrite d v.directoryLba s
  | _ => True

theorem program_meets {info : Info} {d : Disk} {v : Vnode} {cs : List Nat} {E : Terms Sector}
    (hl : Layout info) (hn : Counted info d v cs) (hne : v.type = .directory → cs ≠ [])
    (hp : Permitted info v d E) (acquired : Bool) (call : Call)
    (ha : v.type = .regular → Allowed info cs v d E call) :
    (call.program info v acquired).Meets E d fun r d' => Effect info cs v E acquired d r d' call := by
  cases call with
  | lookup name allocated =>
    refine (fat32Lookup_meets hl hp.toReadable hp.steady hn hne name allocated acquired).bind ?_
    rintro r d' ⟨rfl,hr⟩
    cases r with
    | error code => exact meets_pure hp.steady ⟨rfl,nofun⟩
    | ok child =>
      refine meets_pure hp.steady ⟨rfl,fun child' h => ?_⟩
      obtain rfl := Option.some.inj h
      have hr : lookupResult info d' v cs name allocated acquired = .ok child :=
        (hr.resolve_right fun h => by cases h.1).symm
      unfold lookupResult at hr
      split at hr
      · cases hr
      rename_i ht
      split at hr
      · cases hr
      rename_i target _
      split at hr
      · cases hr
      · exact ⟨not_not.mp ht,target,allocated,hr⟩
  | read offset size buffer => exact fat32Read_meets hl hn hp offset size buffer
  | write offset size buffer => exact fat32Write_meets hl hn hp ha
  | append size buffer => exact fat32Append_meets hl hn hp ha
  | truncate length => exact fat32Truncate_meets hp ha
  | refreshMetadata => exact fat32RefreshMetadata_meets hp
  | fsync => exact fat32Fsync_meets hp

def mountResult (d : Disk) (partition : Nat) (allocated acquired : Bool) : Option (Info × Vnode) :=
  let b := d partition
  let info := Bpb.parsed b partition
  if acquired = false then none
  else if Bpb.rejected b partition = true then none
  else if info.clusterCount = 0 ∨ 0x0FFFFFF0 ≤ u32 (info.clusterCount + 1) ∨
      Bpb.sectorsPerFat b * (sectorSize / 4) < info.clusterCount + 2 then none
  else if validCluster info (Bpb.rootCluster b) = true then
    match chain? info d (Bpb.rootCluster b) with
    | none => none
    | some cs =>
      if allocated = false then none
      else some (info,makeNode (Bpb.rootCluster b) (cs.length * clusterBytes info) 0 .directory 0 0)
  else none

theorem mount_meets {d : Disk} {E : Terms Sector} {partition : Nat} (allocated acquired : Bool)
    (hp : partition < 2^32) (hb : E.mayRead partition) (hs : E.safe d)
    (hr : Geometry (d partition) partition (Bpb.parsed (d partition) partition) →
      TableReadable (Bpb.parsed (d partition) partition) E) :
    (mount partition allocated acquired).Meets E d fun r d' => d' = d ∧
      (r = mountResult d partition allocated acquired ∨ r = none ∧ E.readFails = true) := by
  simp only [mountResult]
  refine meets_ite (fun h => ?_) fun hacq => ?_
  · exact meets_pure hs ⟨rfl,.inl (by rw [if_pos h])⟩
  rw [if_neg hacq]
  refine meets_read hb (fun hf => meets_pure hs ⟨rfl,.inr ⟨rfl,hf⟩⟩) (meets_ite (fun h => ?_) fun hrej => ?_)
  · exact meets_pure hs ⟨rfl,.inl (by rw [if_pos h])⟩
  rw [if_neg hrej]
  refine meets_ite (fun h => ?_) fun hcount => ?_
  · exact meets_pure hs ⟨rfl,.inl (by rw [if_pos h])⟩
  rw [if_neg hcount]
  have hgeo := geometry_of_parsed hp (by simpa using hrej) hcount
  refine meets_ite (fun hroot => ?_) fun hroot => ?_
  case refine_2 => exact meets_pure hs ⟨rfl,.inl (by rw [if_neg hroot])⟩
  rw [if_pos hroot]
  refine (chainCapacity_meets hgeo.toLayout (hr hgeo) hs _).bind ?_
  rintro r d' ⟨rfl,hcap | ⟨rfl,hf⟩⟩
  case inr => exact meets_pure hs ⟨rfl,.inr ⟨rfl,hf⟩⟩
  cases hc : chain? (Bpb.parsed (d' partition) partition) d' (Bpb.rootCluster (d' partition)) with
  | none =>
    rw [hc] at hcap
    subst hcap
    exact meets_pure hs ⟨rfl,.inl rfl⟩
  | some cs =>
    rw [hc] at hcap
    subst hcap
    refine meets_ite (fun h => ?_) fun h => ?_
    · exact meets_pure hs ⟨rfl,.inl (by simp only [if_pos h])⟩
    · exact meets_pure hs ⟨rfl,.inl (by simp only [if_neg h])⟩

theorem mountResult_some {d : Disk} {partition : Nat} {allocated acquired : Bool} {info : Info}
    {root : Vnode} (hp : partition < 2^32)
    (h : mountResult d partition allocated acquired = some (info,root)) :
    info = Bpb.parsed (d partition) partition ∧ Geometry (d partition) partition info ∧
      root.type = .directory ∧ (∃ cs, Counted info d root cs ∧ cs ≠ []) ∧
      allocated = true ∧ acquired = true := by
  simp only [mountResult] at h
  split at h
  · cases h
  next hacq =>
  split at h
  · cases h
  next hrej =>
  split at h
  · cases h
  next hcount =>
  split at h
  case isFalse => cases h
  next hroot =>
  split at h
  · cases h
  next cs hcs =>
  split at h
  · cases h
  next hall =>
  obtain ⟨rfl,rfl⟩ := h
  obtain ⟨hc,hle⟩ := trail?_eq_some.mp hcs
  refine ⟨rfl,geometry_of_parsed hp (by simpa using hrej) hcount,rfl,⟨cs,⟨hc,hle,rfl⟩,?_⟩,
    by simpa using hall,by simpa using hacq⟩
  rintro rfl
  have h0 : Bpb.rootCluster (d partition) = 0 := hc
  rw [validCluster_iff,h0] at hroot
  omega

open List

/-- A sector of the first table, at the number the code computes for a cluster, in exact arithmetic. -/
def TableSector (b : Sector) (partition : Nat) (info : Info) (lba : Nat) : Prop :=
  ∃ c, validCluster info c = true ∧ c * 4 < 2^32 ∧ lba = partition + Bpb.reserved b + c * 4 / sectorSize ∧
    lba < partition + Bpb.reserved b + Bpb.sectorsPerFat b ∧ lba < partition + Bpb.total b ∧ lba < 2^32

/-- A sector of that cluster, again in exact arithmetic. -/
def ClusterSector (b : Sector) (partition : Nat) (info : Info) (c lba : Nat) : Prop :=
  validCluster info c = true ∧ ∃ s < info.sectorsPerCluster,
    lba = partition + Bpb.metadata b + (c-2) * info.sectorsPerCluster + s ∧
    lba < partition + Bpb.total b ∧ lba < 2^32

/-- What a call on the vnode may do to the disk: read the first table and the data area, write the
clusters of its chain and the sector of its entry. -/
def Confined (b : Sector) (partition : Nat) (info : Info) (d : Disk) (v : Vnode) : Access Sector → Prop
  | .read lba _ => TableSector b partition info lba ∨ ∃ c, ClusterSector b partition info c lba
  | .write lba _ _ _ => v.type = .regular ∧ ∃ cs, Counted info d v cs ∧
      ((∃ c ∈ cs, ClusterSector b partition info c lba) ∨
        lba = v.directoryLba ∧ ∃ c, ClusterSector b partition info c lba)
  | .flush _ => True

/-- A vnode of the volume: its chain is counted, and the entry of a file lies in the data area. -/
structure Sited (info : Info) (d : Disk) (v : Vnode) (cs : List Nat) : Prop where
  counted : Counted info d v cs
  nonempty : v.type = .directory → cs ≠ []
  place : v.type = .regular → ∃ c, validCluster info c = true ∧ ∃ s < info.sectorsPerCluster,
    v.directoryLba = clusterSector info c s

section Sited
variable {info : Info} {d d' : Disk} {v : Vnode} {cs : List Nat}

theorem Counted.congr (h : Counted info d v cs) (ht : SameTables info d d') (hl : Layout info) :
    Counted info d' v cs :=
  ⟨by rw [Chain,ht.fatNext hl]; exact h.chain,h.length_le,h.capacity⟩

theorem Sited.congr (h : Sited info d v cs) (ht : SameTables info d d') (hl : Layout info) :
    Sited info d' v cs :=
  ⟨h.counted.congr ht hl,h.nonempty,h.place⟩

theorem Sited.withLength (h : Sited info d v cs) (n : Nat) : Sited info d { v with length := n } cs :=
  ⟨⟨h.counted.chain,h.counted.length_le,h.counted.capacity⟩,h.nonempty,h.place⟩

theorem SameTables.symm (h : SameTables info d d') : SameTables info d' d :=
  fun lba hlba => (h lba hlba).symm

theorem SameTables.trans {d'' : Disk} (h : SameTables info d d') (h' : SameTables info d' d'') :
    SameTables info d d'' :=
  fun lba hlba => (h' lba hlba).trans (h lba hlba)

theorem Sited.published (h : Sited info d v cs) (ht : v.type = .regular) (d₁ : Disk) (n : Nat) :
    SameTables info d₁ (published d v d₁ n) := by
  intro lba hlba
  obtain ⟨c,_,s,_,hplace⟩ := h.place ht
  refine Function.update_of_ne (fun he => ?_) _ _
  have hge : info.dataLba ≤ clusterSector info c s := le_clusterSector
  omega

theorem Child.sited {ds : List Nat} (h : Child info d ds v cs)
    (hds : ∀ c ∈ ds, validCluster info c = true) : Sited info d v cs := by
  obtain ⟨c,hc,s,hs,hplace⟩ := h.place
  exact ⟨h.counted,h.nonempty,fun _ => ⟨c,hds c hc,s,hs,hplace⟩⟩

end Sited

/-- The terms of confinement, with everything that can fail failing. -/
def confinement (info : Info) (d₀ : Disk) (v : Vnode) (cs : List Nat) : Terms Sector where
  readFails := true
  writeFails := true
  mayRead lba := (∃ c, validCluster info c = true ∧ lba = fatSector info c) ∨
    ∃ c, validCluster info c = true ∧ ∃ s < info.sectorsPerCluster, lba = clusterSector info c s
  mayWrite _ lba _ := v.type = .regular ∧
    ((∃ c ∈ cs, ∃ s < info.sectorsPerCluster, lba = clusterSector info c s) ∨ lba = v.directoryLba)
  safe d := SameTables info d₀ d

section Confinement
variable {info : Info} {d₀ d : Disk} {v : Vnode} {cs : List Nat}

theorem confinement_permitted (hs : Sited info d₀ v cs) (ht : SameTables info d₀ d) :
    Permitted info v d (confinement info d₀ v cs) where
  table c hc := .inl ⟨c,hc,rfl⟩
  data c s hc hs := .inr ⟨c,hc,s,hs,rfl⟩
  entry hreg := .inr (hs.place hreg)
  steady := ht

theorem confinement_allowed (hl : Layout info) (hs : Sited info d₀ v cs) (ht : SameTables info d₀ d)
    (hreg : v.type = .regular) (call : Call) : Allowed info cs v d (confinement info d₀ v cs) call := by
  have hpub : ∀ d₁ n, SameTables info d d₁ → SameTables info d₀ (published d v d₁ n) := fun d₁ n h =>
    (ht.trans h).trans ((hs.congr ht hl).published hreg d₁ n)
  have hguard : ∀ bytes offset size,
      Guarded info cs v bytes offset size d (confinement info d₀ v cs) := fun bytes offset size =>
    { between := fun d₁ hw => ht.trans (hw.sameTables hl)
      sectors := fun _ _ q hq _ => ⟨hreg,.inl (fileSector_mem hl hq)⟩
      directory := fun _ _ _ => ⟨hreg,.inr rfl⟩
      behind := fun d₁ n hw _ _ _ _ => hpub d₁ _ (hw.sameTables hl) }
  cases call with
  | write offset size buffer => exact fun bytes _ _ _ _ => hguard bytes _ _
  | append size buffer => exact fun bytes _ => hguard bytes _ _
  | truncate length => exact fun _ => ⟨hpub d length fun _ _ => rfl,fun _ => ⟨hreg,.inr rfl⟩⟩
  | _ => trivial

structure Held (info : Info) (d₀ : Disk) (w : Volume) : Prop where
  tables : SameTables info d₀ w.disk
  nodes : ∀ v ∈ w.nodes, ∃ cs, Sited info d₀ v cs
  log : ∀ r ∈ w.log, ∃ cs, Sited info d₀ r.vnode cs ∧
    ∀ x ∈ r.trace, ∃ d, (confinement info d₀ r.vnode cs).Allows d x

theorem step_held (hl : Layout info) {w : Volume} (h : Held info d₀ w) (e : Event) :
    Held info d₀ (step info w e) := by
  unfold step
  cases hv : w.nodes[e.node]? with
  | none => exact h
  | some v =>
    have hmem : v ∈ w.nodes := mem_of_getElem? hv
    obtain ⟨cs,hs⟩ := h.nodes v hmem
    have hsd := hs.congr h.tables hl
    have hk := (program_meets hl hsd.counted hsd.nonempty (confinement_permitted hs h.tables)
      e.acquired e.call fun hreg => confinement_allowed hl hs h.tables hreg e.call).exec e.fates
      (fun _ _ => ⟨nofun,nofun⟩)
    refine ⟨hk.safe_end,fun u hu => ?_,fun r hr => ?_⟩
    · rcases mem_append.mp hu with hu | hu
      · rcases mem_or_eq_of_mem_set hu with hu | rfl
        · exact h.nodes u hu
        · exact ⟨cs,hs.withLength _⟩
      -- a new vnode comes out of a directory whose clusters are valid
      obtain ⟨_,_,target,allocated,hfound⟩ := hk.ends.found (Option.mem_toList.mp hu)
      obtain ⟨us,hchild⟩ := found_child hfound
      exact ⟨us,(hchild.sited fun c hc => hsd.counted.chain.valid hc).congr h.tables.symm hl⟩
    rcases mem_append.mp hr with hr | hr
    · exact h.log r hr
    obtain rfl := mem_singleton.mp hr
    exact ⟨cs,hs,fun x hx => hk.allows hx⟩

theorem run_held (hl : Layout info) {root : Vnode} (hroot : Sited info d₀ root cs) (es : List Event) :
    Held info d₀ ((machine info root d₀).run es) := by
  have h0 : Held info d₀ (machine info root d₀).initial := by
    refine ⟨fun _ _ => rfl,fun v hv => ?_,fun r hr => by cases hr⟩
    obtain rfl := mem_singleton.mp hv
    exact ⟨cs,hroot⟩
  exact (machine info root d₀).run_invariant h0 (fun w e h => step_held hl h e) es

section
variable {b : Sector} {partition : Nat} (h : Geometry b partition info)
include h

theorem Geometry.tableSector {c : Nat} (hc : validCluster info c = true) :
    TableSector b partition info (fatSector info c) := by
  have hv := validCluster_iff.mp hc
  have hlt := h.fatSector_lt hc
  have hd := h.data_end
  have hn := h.count_lt
  have hcov := h.covered
  have hin := h.inside
  have hfat := h.fatLba_eq
  have hdata := h.dataLba_eq
  refine ⟨c,hc,by omega,?_,?_,by omega,by omega⟩ <;> simp only [fatSector,sectorSize] at * <;> omega

theorem Geometry.clusterSector {c s : Nat} (hc : validCluster info c = true)
    (hs : s < info.sectorsPerCluster) :
    ClusterSector b partition info c (clusterSector info c s) := by
  have hlt := clusterSector_lt hc hs
  have hin := h.inside
  have hdata := h.dataLba_eq
  have hbelow := h.below
  refine ⟨hc,s,hs,by simp only [Fat32.clusterSector,hdata],by omega,by omega⟩

theorem confined_of_allows (hs : Sited info d₀ v cs) {x : Access Sector}
    (hx : (confinement info d₀ v cs).Allows d x) :
    Confined b partition info d₀ v x := by
  cases x with
  | read lba ok =>
    rcases hx with ⟨c,hc,rfl⟩ | ⟨c,hc,s,hsec,rfl⟩
    · exact .inl (h.tableSector hc)
    · exact .inr ⟨c,h.clusterSector hc hsec⟩
  | write lba s ok stored =>
    obtain ⟨hreg,⟨c,hc,s,hsec,rfl⟩ | rfl⟩ := hx
    · exact ⟨hreg,cs,hs.counted,.inl ⟨c,hc,h.clusterSector (hs.counted.chain.valid hc) hsec⟩⟩
    obtain ⟨c,hc,s,hsec,hplace⟩ := hs.place hreg
    exact ⟨hreg,cs,hs.counted,.inr ⟨rfl,c,hplace ▸ h.clusterSector hc hsec⟩⟩
  | flush ok => trivial

end

end Confinement

def Mounting (b : Sector) (partition : Nat) : Access Sector → Prop
  | .read lba _ => lba = partition ∨ TableSector b partition (Bpb.parsed b partition) lba
  | .write _ _ _ _ => False
  | .flush _ => True

theorem mount_confined {d : Disk} {partition : Nat} (hp : partition < 2^32) (allocated acquired : Bool)
    (fates : List Fate) :
    (∀ x ∈ ((mount partition allocated acquired).exec d fates).trace,
      Mounting (d partition) partition x) ∧
    ∀ r, ((mount partition allocated acquired).exec d fates).value = some r →
      mountResult d partition allocated acquired = some r := by
  let E : Terms Sector :=
    { readFails := true
      writeFails := true
      mayRead := fun lba => lba = partition ∨
        TableSector (d partition) partition (Bpb.parsed (d partition) partition) lba
      mayWrite := fun _ _ _ => False
      safe := fun _ => True }
  have hk := (mount_meets (E := E) allocated acquired hp (.inl rfl) trivial
    fun hgeo c hc => .inr (hgeo.tableSector hc)).exec fates
    (fun _ _ => ⟨nofun,nofun⟩)
  refine ⟨fun x hx => ?_,fun r hr => ?_⟩
  · obtain ⟨_,hx⟩ := hk.allows hx
    cases x <;> exact hx
  rcases hk.ends.2 with h | h
  · rw [← h,hr]
  · rw [hr] at h; cases h.1

/-- For every boot sector that `mount` accepts and any contents of all other sectors, every command of every later
call, with any failures, is confined, and no sector before the data area ever changes. -/
theorem fat32_confinement (partition : Nat) (hp : partition < 2^32) (d : Disk)
    (allocated acquired : Bool) (fates : List Fate) (info : Info) (root : Vnode)
    (hm : ((mount partition allocated acquired).exec d fates).value = some (info,root))
    (es : List Event) :
    info = Bpb.parsed (d partition) partition ∧
    (∀ x ∈ ((mount partition allocated acquired).exec d fates).trace,
      Mounting (d partition) partition x) ∧
    (∀ r ∈ ((machine info root d).run es).log, ∀ x ∈ r.trace,
      Confined (d partition) partition info d r.vnode x) ∧
    ∀ lba < partition + Bpb.metadata (d partition), ((machine info root d).run es).disk lba = d lba := by
  obtain ⟨hmount,hvalue⟩ := mount_confined (d := d) hp allocated acquired fates
  obtain ⟨hinfo,hgeo,hroot,⟨cs,hcs,hne⟩,_⟩ := mountResult_some hp (hvalue _ hm)
  have hsited : Sited info d root cs := ⟨hcs,fun _ => hne,fun hreg => by rw [hroot] at hreg; cases hreg⟩
  have hheld := run_held hgeo.toLayout hsited es
  refine ⟨hinfo,hmount,fun r hr x hx => ?_,fun lba hlba => hheld.tables lba (hgeo.dataLba_eq ▸ hlba)⟩
  obtain ⟨cs,hs,hall⟩ := hheld.log r hr
  obtain ⟨_,hx⟩ := hall x hx
  exact confined_of_allows hgeo hs hx

/-- A volume of eight clusters behind one reserved sector and one table. The root directory holds one
file, `A`, of five bytes in a chain of two clusters. -/
def smallVolume : Disk := fun lba i =>
  if lba = 0 then
    match i with
    | 12 => 2 | 13 => 1 | 14 => 1 | 16 => 1 | 19 => 10 | 36 => 1 | 44 => 2 | 510 => 0x55 | 511 => 0xAA
    | _ => 0
  else if lba = 1 then
    match i with
    | 8 => 0xFF | 9 => 0xFF | 10 => 0xFF | 11 => 0x0F
    | 12 => 4
    | 16 => 0xFF | 17 => 0xFF | 18 => 0xFF | 19 => 0x0F
    | _ => 0
  else if lba = 2 then
    match i with
    | 0 => 65 | 26 => 3 | 28 => 5
    | 1 | 2 | 3 | 4 | 5 | 6 | 7 | 8 | 9 | 10 => 32
    | _ => 0
  else 0

theorem fat32_confinement_smallVolume : ((mount 0 true true).exec smallVolume []).value =
      some (⟨1,2,8,1⟩,⟨.directory,2,512,0,0,0⟩) ∧
    ∀ es, ∀ lba < 2, ((machine ⟨1,2,8,1⟩ ⟨.directory,2,512,0,0,0⟩ smallVolume).run es).disk lba =
      smallVolume lba := by
  have hm : ((mount 0 true true).exec smallVolume []).value =
      some (⟨1,2,8,1⟩,⟨.directory,2,512,0,0,0⟩) := by decide +kernel
  exact ⟨hm,fun es => (fat32_confinement 0 (by decide) smallVolume true true [] _ _ hm es).2.2.2⟩

end Rucux.Vfs.Fat32
