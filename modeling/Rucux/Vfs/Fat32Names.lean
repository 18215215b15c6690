import Rucux.Vfs.Fat32Lookup

namespace Rucux.Vfs.Fat32
open Rucux.Lib List Function

/-- The root and what lookups lead to from there, with the chains. -/
inductive Named (info : Info) (root : Vnode) (d : Disk) : Vnode → List Nat → Prop where
  | root {cs : List Nat} (hc : Counted info d root cs) (hne : cs ≠ []) : Named info root d root cs
  | child {u v : Vnode} {ds cs : List Nat} {target : List UInt8} {allocated : Bool}
      (hu : Named info root d u ds) (ht : u.type = .directory)
      (hf : found info d ds target allocated = .ok v) (hc : Child info d ds v cs) :
      Named info root d v cs

/-- The chains of files are disjoint from each other and from the chains of directories. -/
structure Separate (info : Info) (root : Vnode) (d : Disk) : Prop where
  directories : ∀ {v u cs ds}, Named info root d v cs → v.type = .regular → Named info root d u ds →
    u.type = .directory → ∀ c ∈ cs, c ∉ ds
  files : ∀ {v u cs us}, Named info root d v cs → v.type = .regular → Named info root d u us →
    u.type = .regular → (v.directoryLba,v.directoryOffset) ≠ (u.directoryLba,u.directoryOffset) →
    ∀ c ∈ cs, c ∉ us

def DirSector (info : Info) (root : Vnode) (d : Disk) (lba : Nat) : Prop :=
  ∃ u ds, Named info root d u ds ∧ u.type = .directory ∧
    ∃ c ∈ ds, ∃ s < info.sectorsPerCluster, lba = clusterSector info c s

section Named
variable {info : Info} {root : Vnode} {d : Disk} {v u : Vnode} {cs us : List Nat}

section
variable (h : Named info root d v cs)
include h

theorem Named.counted : Counted info d v cs := by
  cases h with
  | root hc _ => exact hc
  | child _ _ _ hc => exact hc.counted

theorem Named.nonempty (ht : v.type = .directory) : cs ≠ [] := by
  cases h with
  | root _ hne => exact hne
  | child _ _ _ hc => exact hc.nonempty ht

section
variable (hroot : root.type = .directory) (ht : v.type = .regular)
include hroot ht

theorem Named.file : ∃ u ds, Named info root d u ds ∧ u.type = .directory ∧ Child info d ds v cs := by
  cases h with
  | root _ _ => rw [hroot] at ht; cases ht
  | child hu hdir _ hc => exact ⟨_,_,hu,hdir,hc⟩

theorem Named.dirSector : DirSector info root d v.directoryLba := by
  obtain ⟨u,ds,hu,hdir,hc⟩ := h.file hroot ht
  exact ⟨u,ds,hu,hdir,hc.place⟩

end

theorem Named.unique (h' : Named info root d u us) (hroot : root.type = .directory) (ht : v.type = .regular)
    (ht' : u.type = .regular) (hlba : v.directoryLba = u.directoryLba)
    (hoff : v.directoryOffset = u.directoryOffset) :
    v = u ∧ cs = us := by
  obtain ⟨_,_,_,_,hc⟩ := h.file hroot ht
  obtain ⟨_,_,_,_,hc'⟩ := h'.file hroot ht'
  have he := hc.entry
  rw [hlba,hoff,hc'.entry] at he
  obtain rfl := Except.ok.inj he
  exact ⟨rfl,hc.counted.chain.unique hc'.counted.chain⟩

end

theorem DirSector.valid {lba : Nat} (h : DirSector info root d lba) :
    ∃ c s, validCluster info c = true ∧ s < info.sectorsPerCluster ∧ lba = clusterSector info c s := by
  obtain ⟨u,ds,hu,_,c,hc,s,hs,rfl⟩ := h
  exact ⟨c,s,hu.counted.chain.valid hc,hs,rfl⟩

section
variable (hsep : Separate info root d) (hl : Layout info) (hv : Named info root d v cs)
  (ht : v.type = .regular) {q : Nat}
include hsep hl hv ht

theorem Separate.fileSector_ne {lba : Nat} (hlba : DirSector info root d lba)
    (hq : q < cs.length * info.sectorsPerCluster) :
    fileSector info cs q ≠ lba := by
  obtain ⟨u,ds,hu,hdir,c,hc,s,hs,rfl⟩ := hlba
  obtain ⟨c',hc',s',hs',he⟩ := fileSector_mem hl hq
  rw [he]
  intro heq
  have hval := (validCluster_iff.mp (hu.counted.chain.valid hc)).1
  have hval' := (validCluster_iff.mp (hv.counted.chain.valid hc')).1
  obtain ⟨rfl,_⟩ := clusterSector_inj hval' hval hs' hs heq
  exact hsep.directories hv ht hu hdir c' hc' hc

theorem Separate.fileSectors_ne (hu : Named info root d u us) (ht' : u.type = .regular)
    (hne : (v.directoryLba,v.directoryOffset) ≠ (u.directoryLba,u.directoryOffset)) {q' : Nat}
    (hq : q < cs.length * info.sectorsPerCluster) (hq' : q' < us.length * info.sectorsPerCluster) :
    fileSector info cs q ≠ fileSector info us q' := by
  obtain ⟨c,hc,s,hs,he⟩ := fileSector_mem hl hq
  obtain ⟨c',hc',s',hs',he'⟩ := fileSector_mem hl hq'
  rw [he,he']
  intro heq
  have hval := (validCluster_iff.mp (hv.counted.chain.valid hc)).1
  have hval' := (validCluster_iff.mp (hu.counted.chain.valid hc')).1
  obtain ⟨rfl,_⟩ := clusterSector_inj hval hval' hs hs' heq
  exact hsep.files hv ht hu ht' hne c hc hc'

end

end Named

theorem read32_write32 (s : Sector) (p : Nat) {n : Nat} (hn : n < 2^32) :
    read32 (write32 s p n) p = n := by
  simp only [read32,write32]
  rw [if_pos (by omega),if_pos (by omega),if_pos (by omega),if_pos (by omega)]
  simp only [UInt8.toNat_ofNat',Nat.sub_self,Nat.add_sub_cancel_left]
  omega

theorem write32_other (s : Sector) {p i : Nat} (n : Nat) (h : i < p ∨ p + 4 ≤ i) :
    write32 s p n i = s i := if_neg (by omega)

theorem read32_congr {s s' : Sector} {p : Nat} (h : ∀ i, p ≤ i → i < p + 4 → s' i = s i) :
    read32 s' p = read32 s p := by
  simp only [read32]
  rw [h p (by omega) (by omega),h (p+1) (by omega) (by omega),h (p+2) (by omega) (by omega),
    h (p+3) (by omega) (by omega)]

theorem read16_congr {s s' : Sector} {p : Nat} (h : ∀ i, p ≤ i → i < p + 2 → s' i = s i) :
    read16 s' p = read16 s p := by
  simp only [read16]
  rw [h p (by omega) (by omega),h (p+1) (by omega) (by omega)]

def SizeByte (info : Info) (root : Vnode) (d : Disk) (lba i : Nat) : Prop :=
  ∃ v cs, Named info root d v cs ∧ v.type = .regular ∧ v.directoryLba = lba ∧
    v.directoryOffset + 28 ≤ i ∧ i < v.directoryOffset + 32

/-- The disk `d` has the directories of `d₀`, but for sizes of files. -/
structure Evolved (info : Info) (root : Vnode) (d₀ d : Disk) : Prop where
  tables : SameTables info d₀ d
  entries : ∀ lba, DirSector info root d₀ lba → ∀ i, d lba i = d₀ lba i ∨ SizeByte info root d₀ lba i
  sizes : ∀ v cs, Named info root d₀ v cs → v.type = .regular → eof d v ≤ v.allocatedBytes

def relength (d : Disk) (v : Vnode) : Vnode := { v with length := eof d v }

section Lookup
variable {info : Info} {root : Vnode} {d₀ d : Disk} {s s' : Sector} {target : List UInt8}

@[simp] theorem relength_relength (v : Vnode) : relength d (relength d₀ v) = relength d v := by
  rfl

theorem scanEntries_congr (h : ∀ i, i % 32 < 28 → s' i = s i) {entry : Nat} (ha : entry % 32 = 0)
    (rounds : Nat) : scanEntries s' target rounds entry = scanEntries s target rounds entry := by
  induction rounds generalizing entry with
  | zero => rfl
  | succ rounds ih =>
    have hname : (range 11).map (fun j => s' (entry+j)) = (range 11).map fun j => s (entry+j) := by
      apply map_congr_left
      intro j hj
      have hj := mem_range.mp hj
      exact h _ (by omega)
    simp only [scanEntries,h entry (by omega),h (entry+11) (by omega),hname,
      ih (show (entry+32) % 32 = 0 by omega)]

theorem searchCluster_congr {c : Nat} {rounds sec : Nat}
    (h : ∀ k, sec ≤ k → k < sec + rounds → ∀ i, i % 32 < 28 →
      d (clusterSector info c k) i = d₀ (clusterSector info c k) i) :
    searchCluster info d target c rounds sec = searchCluster info d₀ target c rounds sec := by
  induction rounds generalizing sec with
  | zero => rfl
  | succ rounds ih =>
    have hrest : searchCluster info d target c rounds (sec+1) =
        searchCluster info d₀ target c rounds (sec+1) := ih fun k h1 h2 => h k (by omega) (by omega)
    simp only [searchCluster,hrest, scanEntries_congr (h sec (by omega) (by omega)) (Nat.zero_mod 32) 16]

theorem search_congr {ds : List Nat} (h : ∀ c ∈ ds, ∀ k < info.sectorsPerCluster, ∀ i, i % 32 < 28 →
      d (clusterSector info c k) i = d₀ (clusterSector info c k) i) :
    search info d target ds = search info d₀ target ds := by
  induction ds with
  | nil => rfl
  | cons c cs ih =>
    have hfirst : searchCluster info d target c info.sectorsPerCluster 0 =
        searchCluster info d₀ target c info.sectorsPerCluster 0 :=
      searchCluster_congr fun k _ hk => h c mem_cons_self k (by omega)
    simp only [search,hfirst,ih fun c hc => h c (mem_cons_of_mem _ hc)]

theorem Named.aligned {v : Vnode} {cs : List Nat} (h : Named info root d₀ v cs)
    (hroot : root.type = .directory) (ht : v.type = .regular) : v.directoryOffset % 32 = 0 := by
  obtain ⟨_,_,_,_,hc⟩ := h.file hroot ht
  exact hc.aligned

theorem Evolved.low (h : Evolved info root d₀ d) (hroot : root.type = .directory) {lba i : Nat}
    (hlba : DirSector info root d₀ lba) (hi : i % 32 < 28) : d lba i = d₀ lba i := by
  refine (h.entries lba hlba i).resolve_right ?_
  rintro ⟨v,cs,hv,ht,_,h1,h2⟩
  have := hv.aligned hroot ht
  omega

theorem opened_of_entry {v : Vnode} {cs : List Nat}
    (hstart : entryCluster (d v.directoryLba) v.directoryOffset = v.startCluster)
    (htype : entryType (d v.directoryLba) v.directoryOffset = v.type) (ht : v.type = .regular)
    (hcs : chain? info d v.startCluster = some cs)
    (hcap : v.allocatedBytes = cs.length * clusterBytes info)
    (hzero : v.startCluster = 0 → v.allocatedBytes = 0) (hle : eof d v ≤ v.allocatedBytes)
    (allocated : Bool) : opened info d v.directoryLba v.directoryOffset allocated =
      if allocated = false then .error (-12) else .ok (relength d v) := by
  have hcond : ¬(v.startCluster = 0 ∧ (v.type = .directory ∨ eof d v ≠ 0)) := by
    rintro ⟨h0,hdir | hlen⟩
    · rw [ht] at hdir; cases hdir
    · omega
  have heof : read32 (d v.directoryLba) (v.directoryOffset+28) = eof d v := rfl
  unfold opened
  simp only [hstart,htype,heof]
  rw [if_neg hcond]
  simp only [hcs]
  rw [if_neg (by rw [← hcap]; exact Nat.not_lt.mpr hle)]
  simp only [makeNode,relength,hcap]

section
variable (h : Evolved info root d₀ d) (hl : Layout info) (hroot : root.type = .directory)
include h hl hroot

theorem Evolved.opened {lba entry : Nat} (hlba : DirSector info root d₀ lba) (ha : entry % 32 = 0)
    (allocated : Bool) :
    opened info d lba entry allocated = (opened info d₀ lba entry allocated).map (relength d) := by
  have hstart : entryCluster (d lba) entry = entryCluster (d₀ lba) entry := by
    simp only [entryCluster]
    rw [read16_congr fun i _ _ => h.low hroot hlba (by omega),
      read16_congr fun i _ _ => h.low hroot hlba (by omega)]
  have htype : entryType (d lba) entry = entryType (d₀ lba) entry := by
    simp only [entryType,h.low hroot hlba (show (entry+11) % 32 < 28 by omega)]
  have hchain : ∀ c, chain? info d c = chain? info d₀ c := fun c => by
    simp only [chain?,h.tables.fatNext hl]
  by_cases hex : ∃ v cs, Named info root d₀ v cs ∧ v.type = .regular ∧ v.directoryLba = lba ∧
      v.directoryOffset = entry
  · obtain ⟨v,cs,hv,ht,rfl,rfl⟩ := hex
    obtain ⟨_,_,_,_,hc⟩ := hv.file hroot ht
    obtain ⟨_,_,_,_,hvtype,hvstart,_,hle₀,_⟩ := opened_ok hc.entry
    have hcap := hc.counted.capacity
    have hcs : chain? info d₀ v.startCluster = some cs :=
      trail?_eq_some.mpr ⟨hc.counted.chain,hc.counted.length_le⟩
    -- an empty chain holds an empty file
    have hzero : v.startCluster = 0 → v.allocatedBytes = 0 := by
      intro h0
      have hempty : Chain info d₀ v.startCluster [] := h0
      have hnil : cs = [] := hc.counted.chain.unique hempty
      rw [hcap,hnil,length_nil,Nat.zero_mul]
    rw [opened_of_entry (hstart.trans hvstart.symm) (htype.trans hvtype.symm) ht
        ((hchain _).trans hcs) hcap hzero (h.sizes v cs hv ht) allocated,
      opened_of_entry hvstart.symm hvtype.symm ht hcs hcap hzero hle₀ allocated]
    cases allocated with
    | false => rfl
    | true => simp [Except.map]
  -- the size is that of no file, so that it is as it was
  have hlen : read32 (d lba) (entry+28) = read32 (d₀ lba) (entry+28) := by
    refine read32_congr fun i h1 h2 => (h.entries lba hlba i).resolve_right ?_
    rintro ⟨v,cs,hv,ht,hv',h3,h4⟩
    have := hv.aligned hroot ht
    exact hex ⟨v,cs,hv,ht,hv',by omega⟩
  have hsame : Fat32.opened info d lba entry allocated = Fat32.opened info d₀ lba entry allocated := by
    simp only [Fat32.opened,hstart,htype,hlen,hchain]
  rw [hsame]
  cases ho : Fat32.opened info d₀ lba entry allocated with
  | error code => rfl
  | ok v =>
    obtain ⟨_,_,rfl,rfl,_,_,hv,_⟩ := opened_ok ho
    have : eof d v = v.length := by rw [hv]; exact hlen
    simp [Except.map,relength,this]

theorem Evolved.found {u : Vnode} {ds : List Nat} (hu : Named info root d₀ u ds) (ht : u.type = .directory)
    (target : List UInt8) (allocated : Bool) :
    found info d ds target allocated = (found info d₀ ds target allocated).map (relength d) := by
  have hsearch : search info d target ds = search info d₀ target ds :=
    search_congr fun c hc k hk i hi => h.low hroot ⟨u,ds,hu,ht,c,hc,k,hk,rfl⟩ hi
  unfold Fat32.found
  rw [hsearch]
  cases hs : search info d₀ target ds with
  | none => rfl
  | some place =>
    obtain ⟨lba,entry⟩ := place
    obtain ⟨⟨c,hc,k,hk,rfl⟩,hm⟩ := search_found hs
    exact h.opened hl hroot ⟨u,ds,hu,ht,c,hc,k,hk,rfl⟩ hm.aligned allocated

end

theorem Evolved.refl (hroot : root.type = .directory) : Evolved info root d₀ d₀ := by
  refine ⟨fun _ _ => rfl,fun _ _ _ => .inl rfl,fun v cs hv ht => ?_⟩
  obtain ⟨_,_,_,_,hc⟩ := hv.file hroot ht
  obtain ⟨_,_,_,_,_,_,_,hle,_⟩ := opened_ok hc.entry
  exact hle

theorem Evolved.intact (h : Evolved info root d₀ d) (hl : Layout info) (hroot : root.type = .directory)
    {v : Vnode} {cs : List Nat} (hv : Named info root d₀ v cs) (ht : v.type = .regular) : Intact d v := by
  have hdir := hv.dirSector hroot ht
  obtain ⟨_,_,_,_,hc⟩ := hv.file hroot ht
  have hpos : v.directoryLba ≠ 0 := by
    obtain ⟨c,s,_,_,hlba⟩ := hdir.valid
    have hge : info.dataLba ≤ clusterSector info c s := le_clusterSector
    have := hl.table_end
    omega
  have h₀ := hc.intact ht hpos
  have ha := hc.aligned
  have hlow : ∀ k, k < 28 → d v.directoryLba (v.directoryOffset+k) =
      d₀ v.directoryLba (v.directoryOffset+k) := fun k hk => h.low hroot hdir (by omega)
  refine ⟨ht,h₀.placed,?_,?_,?_,h.sizes v cs hv ht⟩
  · rw [show v.directoryOffset = v.directoryOffset + 0 from rfl,hlow 0 (by omega)]
    exact h₀.used
  · rw [hlow 11 (by omega)]
    exact h₀.file
  rw [← h₀.start]
  simp only [entryCluster]
  rw [read16_congr fun i _ _ => h.low hroot hdir (by omega),
    read16_congr fun i _ _ => h.low hroot hdir (by omega)]

end Lookup

/-- Data of the file may have been written, and then a size published. -/
def Changed (info : Info) (cs : List Nat) (v : Vnode) (d d' : Disk) : Prop :=
  ∃ bytes offset size d₁, Wrote info cs bytes offset size d d₁ ∧
    (d' = d₁ ∨ ∃ n, n ≤ v.allocatedBytes ∧ n < 2^32 ∧ d' = published d v d₁ n)

section Changed
variable {info : Info} {root : Vnode} {d₀ d d' d₁ : Disk} {v u : Vnode} {cs us : List Nat}
  {bytes : Nat → UInt8} {offset size : Nat}

theorem Wrote.dirSector (hw : Wrote info cs bytes offset size d d₁) (hsep : Separate info root d₀)
    (hl : Layout info) (hv : Named info root d₀ v cs) (ht : v.type = .regular) {lba : Nat}
    (hlba : DirSector info root d₀ lba) : d₁ lba = d lba :=
  hw.outside lba fun _ hq => hsep.fileSector_ne hl hv ht hlba hq

theorem published_apply (d d₁ : Disk) (v : Vnode) (n lba i : Nat)
    (h : ¬(lba = v.directoryLba ∧ v.directoryOffset + 28 ≤ i ∧ i < v.directoryOffset + 32))
    (hd : d₁ v.directoryLba = d v.directoryLba) : published d v d₁ n lba i = d₁ lba i := by
  unfold published
  by_cases hlba : lba = v.directoryLba
  · rw [hlba,update_self,write32_other _ _ (by omega),hd]
  · rw [update_of_ne hlba]

theorem eof_published (d d₁ : Disk) (v : Vnode) {n : Nat} (hn : n < 2^32) :
    eof (published d v d₁ n) v = n := by
  unfold eof published
  rw [update_self,read32_write32 _ _ hn]

section
variable (h : Changed info cs v d d') (hsep : Separate info root d₀) (hl : Layout info)
  (hroot : root.type = .directory) (hv : Named info root d₀ v cs) (ht : v.type = .regular)
include h hsep hl hroot hv ht

theorem Changed.elsewhere (lba i : Nat)
    (hdata : ∀ q < cs.length * info.sectorsPerCluster, fileSector info cs q ≠ lba)
    (hsize : ¬(lba = v.directoryLba ∧ v.directoryOffset + 28 ≤ i ∧ i < v.directoryOffset + 32)) :
    d' lba i = d lba i := by
  obtain ⟨bytes,offset,size,d₁,hw,rfl | ⟨n,_,_,rfl⟩⟩ := h
  · rw [hw.outside lba hdata]
  rw [published_apply d d₁ v n lba i hsize (hw.dirSector hsep hl hv ht (hv.dirSector hroot ht)),
    hw.outside lba hdata]

theorem Changed.other_eof (hu : Named info root d₀ u us) (ht' : u.type = .regular)
    (hne : (v.directoryLba,v.directoryOffset) ≠ (u.directoryLba,u.directoryOffset)) :
    eof d' u = eof d u := by
  have hav := hv.aligned hroot ht
  have hau := hu.aligned hroot ht'
  refine read32_congr fun i h1 h2 => h.elsewhere hsep hl hroot hv ht _ i
    (fun q hq => hsep.fileSector_ne hl hv ht (hu.dirSector hroot ht') hq) ?_
  rintro ⟨hlba,h3,h4⟩
  exact hne (Prod.ext hlba.symm (show v.directoryOffset = u.directoryOffset by omega))

end

theorem fileByte_published (hsep : Separate info root d₀) (hl : Layout info)
    (hroot : root.type = .directory) (hv : Named info root d₀ v cs) (ht : v.type = .regular)
    (hu : Named info root d₀ u us) (ht' : u.type = .regular) (d d₁ : Disk) (n : Nat) {p : Nat}
    (hp : p < us.length * clusterBytes info) :
    fileByte info us (published d v d₁ n) p = fileByte info us d₁ p :=
  fileByte_update_other _ (fun _ hq => hsep.fileSector_ne hl hu ht' (hv.dirSector hroot ht) hq) hp

theorem Changed.other_byte (h : Changed info cs v d d') (hsep : Separate info root d₀)
    (hl : Layout info) (hroot : root.type = .directory) (hv : Named info root d₀ v cs)
    (ht : v.type = .regular) (hu : Named info root d₀ u us) (ht' : u.type = .regular)
    (hne : (v.directoryLba,v.directoryOffset) ≠ (u.directoryLba,u.directoryOffset)) {p : Nat}
    (hp : p < us.length * clusterBytes info) : fileByte info us d' p = fileByte info us d p := by
  obtain ⟨bytes,offset,size,d₁,hw,hd⟩ := h
  have hsame : fileByte info us d₁ p = fileByte info us d p := by
    unfold fileByte
    rw [hw.outside _ fun q hq => hsep.fileSectors_ne hl hv ht hu ht' hne hq (sector_of_byte hp)]
  rcases hd with rfl | ⟨n,_,_,rfl⟩
  · exact hsame
  · rw [fileByte_published hsep hl hroot hv ht hu ht' d d₁ n hp,hsame]

theorem Changed.evolved (h : Changed info cs v d d') (hev : Evolved info root d₀ d)
    (hsep : Separate info root d₀) (hl : Layout info) (hroot : root.type = .directory)
    (hv : Named info root d₀ v cs) (ht : v.type = .regular) : Evolved info root d₀ d' := by
  have hdir := hv.dirSector hroot ht
  refine ⟨fun lba hlba => ?_,fun lba hlba i => ?_,fun u us hu ht' => ?_⟩
  · -- neither data nor entries lie before the data area
    rw [← hev.tables lba hlba]
    funext i
    refine h.elsewhere hsep hl hroot hv ht lba i (fun q hq he => ?_) fun hsize => ?_
    · obtain ⟨c,_,s,_,hcs⟩ := fileSector_mem hl hq
      have hge : info.dataLba ≤ clusterSector info c s := le_clusterSector
      omega
    obtain ⟨c,s,_,_,hcs⟩ := hdir.valid
    have hge : info.dataLba ≤ clusterSector info c s := le_clusterSector
    omega
  · by_cases hsize : lba = v.directoryLba ∧ v.directoryOffset + 28 ≤ i ∧ i < v.directoryOffset + 32
    · exact .inr ⟨v,cs,hv,ht,hsize.1.symm,hsize.2⟩
    rw [h.elsewhere hsep hl hroot hv ht lba i (fun q hq => hsep.fileSector_ne hl hv ht hlba hq) hsize]
    exact hev.entries lba hlba i
  by_cases hne : (v.directoryLba,v.directoryOffset) = (u.directoryLba,u.directoryOffset)
  · simp only [Prod.mk.injEq] at hne
    obtain ⟨rfl,rfl⟩ := hv.unique hu hroot ht ht' hne.1 hne.2
    obtain ⟨bytes,offset,size,d₁,hw,rfl | ⟨n,hle,hn,rfl⟩⟩ := h
    · have hsame : eof d' v = eof d v := by
        unfold eof
        rw [hw.dirSector hsep hl hv ht hdir]
      rw [hsame]
      exact hev.sizes v cs hu ht
    · rw [eof_published d d₁ v hn]
      exact hle
  · rw [h.other_eof hsep hl hroot hv ht hu ht' hne]
    exact hev.sizes u us hu ht'

end Changed

def smallInfo : Info := ⟨1,2,8,1⟩

def smallRoot : Vnode := ⟨.directory,2,512,0,0,0⟩

def smallFile : Vnode := ⟨.regular,3,1024,2,0,5⟩

theorem chain_smallRoot : Chain smallInfo smallVolume smallRoot.startCluster [2] :=
  (trail?_eq_some.mp (show chain? smallInfo smallVolume 2 = some [2] by decide +kernel)).1

theorem chain_smallFile : Chain smallInfo smallVolume smallFile.startCluster [3,4] :=
  (trail?_eq_some.mp (show chain? smallInfo smallVolume 3 = some [3,4] by decide +kernel)).1

theorem found_small {target : List UInt8} {allocated : Bool} {v : Vnode}
    (h : found smallInfo smallVolume [2] target allocated = .ok v) : v = smallFile := by
  -- behind the one entry comes the end mark
  have hrest : scanEntries (smallVolume 2) target 15 32 = .ended := by
    rw [scanEntries,if_pos (by decide)]
  have hsearch : search smallInfo smallVolume target [2] = none ∨
      search smallInfo smallVolume target [2] = some (2,0) := by
    have hfirst : scanEntries (smallVolume 2) target 16 0 = .ended ∨
        scanEntries (smallVolume 2) target 16 0 = .found 0 := by
      rw [scanEntries,if_neg (by decide)]
      split
      · exact .inl hrest
      · exact .inr rfl
    have hsector : clusterSector smallInfo 2 0 = 2 := rfl
    have hone : smallInfo.sectorsPerCluster = 0 + 1 := rfl
    simp only [search,hone,searchCluster,hsector]
    rcases hfirst with hs | hs <;> simp [hs]
  unfold found at h
  rcases hsearch with hs | hs
  · rw [hs] at h; cases h
  rw [hs,openedAt] at h
  have hopen : opened smallInfo smallVolume 2 0 true = .ok v := by
    cases allocated with
    | true => exact h
    | false =>
      have hnone : opened smallInfo smallVolume 2 0 false = .error (-12) := by decide +kernel
      rw [hnone] at h
      cases h
  have hfile : opened smallInfo smallVolume 2 0 true = .ok smallFile := by decide +kernel
  exact (Except.ok.inj (hfile.symm.trans hopen)).symm

theorem named_small {v : Vnode} {cs : List Nat} (h : Named smallInfo smallRoot smallVolume v cs) :
    v = smallRoot ∧ cs = [2] ∨ v = smallFile ∧ cs = [3,4] := by
  induction h with
  | root hc _ => exact .inl ⟨rfl,hc.chain.unique chain_smallRoot⟩
  | child hu ht hf hc ih =>
    rcases ih with ⟨_,rfl⟩ | ⟨rfl,_⟩
    · obtain rfl := found_small hf
      exact .inr ⟨rfl,hc.counted.chain.unique chain_smallFile⟩
    · cases ht

theorem separate_small : Separate smallInfo smallRoot smallVolume := by
  constructor
  · intro v u cs ds hv ht hu hdir
    rcases named_small hv with ⟨rfl,_⟩ | ⟨_,rfl⟩
    · cases ht
    rcases named_small hu with ⟨_,rfl⟩ | ⟨rfl,_⟩
    · decide
    · cases hdir
  intro v u cs us hv ht hu ht' hne
  rcases named_small hv with ⟨rfl,_⟩ | ⟨rfl,_⟩
  · cases ht
  rcases named_small hu with ⟨rfl,_⟩ | ⟨rfl,_⟩
  · cases ht'
  · exact absurd rfl hne

end Rucux.Vfs.Fat32
