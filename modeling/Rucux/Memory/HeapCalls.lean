import Mathlib.Data.List.Chain
import Rucux.Memory.Heap

namespace Rucux.Memory
open Function List Option

namespace Heap

def Apart (h : Heap) (a b : Nat) : Prop :=
  ¬ ((h.block a).isFree = true ∧ (h.block b).isFree = true)

structure Ordered (h : Heap) (tiles : Nat → List Nat) (free : List Nat) : Prop where
  shaped : h.Shaped tiles free
  exact : ∀ a, a ∈ free ↔ h.Tile tiles a ∧ (h.block a).isFree = true
  apart : ∀ r ∈ h.runs, (tiles r.1).IsChain h.Apart

def Used (h : Heap) (tiles : Nat → List Nat) (a : Nat) : Prop :=
  h.Tile tiles a ∧ (h.block a).isFree = false

variable {h h' h'' : Heap} {tiles tiles' tiles'' : Nat → List Nat} {free free' : List Nat}
  {a x : Nat}

structure Remarked (h h' : Heap) (x : Nat) (v : Bool) : Prop where
  runs : h'.runs = h.runs
  freeList : h'.freeList = h.freeList
  present : ∀ a, h'.Present a ↔ h.Present a
  block : ∀ a, h'.block a = { h.block a with isFree := if a = x then v else (h.block a).isFree }

theorem write_mark (hp : h.Present x) (v : Bool) :
    ∃ h', h.write x (fun b => { b with isFree := v }) = some h' ∧ Remarked h h' x v := by
  refine ⟨_,hp.write_eq _,rfl,rfl,present_put hp _,fun a => ?_⟩
  rw [block_put]
  split
  · rw [‹a = x›]
  · rfl

section
variable {v : Bool}

section
variable (hm : Remarked h h' x v)
include hm

theorem Remarked.chained {r : Nat × Nat} {xs : List Nat} (hc : h.Chained r xs) : h'.Chained r xs := by
  refine ⟨hc.tiled.congr ?_,hc.linked.congr ?_ ?_,fun a ha => ?_⟩
  · exact fun a _ => by rw [extent,hm.block]; rfl
  · exact fun a _ => by rw [nextPhys,hm.block]; rfl
  · exact fun a _ => by rw [prevPhys,hm.block]; rfl
  rw [hm.present,hm.block]
  exact hc.header a ha

theorem Remarked.shaped (hs : h.Shaped tiles free) : h'.Shaped tiles free := by
  refine ⟨by rw [hm.runs]; exact hs.pages,by rw [hm.runs]; exact hs.apart,?_,
    hs.links.congr ?_ ?_,hm.freeList.trans hs.head,hs.nodup,by rw [hm.runs]; exact hs.inside⟩
  · rw [hm.runs]
    exact fun r hr => hm.chained (hs.chained r hr)
  · exact fun a _ => by rw [nextFree,hm.block]; rfl
  · exact fun a _ => by rw [prevFree,hm.block]; rfl

theorem Remarked.isFree (a : Nat) : (h'.block a).isFree = if a = x then v else (h.block a).isFree := by
  rw [hm.block]

theorem Remarked.size (a : Nat) : (h'.block a).size = (h.block a).size := by
  rw [hm.block]

theorem Remarked.marked (ha : h.Marked a) (hax : a = x → v = true) : h'.Marked a := by
  intro hp
  have h1 := ha ((hm.present a).mp hp)
  rw [hm.block]
  refine ⟨?_,h1.2⟩
  split
  · exact hax ‹_›
  · exact h1.1

end

end

theorem tile_runs (hr : h'.runs = h.runs) : h'.Tile tiles a ↔ h.Tile tiles a := by
  rw [Tile,Tile,hr]

structure Taken (h : Heap) (tiles : Nat → List Nat) (h' : Heap) (tiles' : Nat → List Nat)
    (new : List Nat) : Prop where
  used : ∀ a, h'.Used tiles' a ↔ h.Used tiles a ∨ a ∈ new
  size : ∀ a, h.Used tiles a → (h'.block a).size = (h.block a).size
  marked : ∀ a, a ∉ new → h.Marked a → h'.Marked a

theorem Taken.refl (h : Heap) (tiles : Nat → List Nat) : Taken h tiles h tiles [] :=
  ⟨by simp,fun _ _ => rfl,fun _ _ hm => hm⟩

theorem Taken.after {new : List Nat} (h1 : Taken h tiles h' tiles' [])
    (h2 : Taken h' tiles' h'' tiles'' new) : Taken h tiles h'' tiles'' new := by
  have hused : ∀ a, h'.Used tiles' a ↔ h.Used tiles a := by simpa using h1.used
  refine ⟨fun a => ?_,fun a ha => ?_,fun a hnot ha => h2.marked a hnot (h1.marked a (by simp) ha)⟩
  · rw [h2.used,hused]
  · exact (h2.size a ((hused a).mpr ha)).trans (h1.size a ha)

def ApartBut (h : Heap) (x a b : Nat) : Prop := a ≠ x → b ≠ x → h.Apart a b

theorem claim_spec (hs : h.Shaped tiles free)
    (hexact : ∀ a, a ∈ free ↔ h.Tile tiles a ∧ (h.block a).isFree = true)
    (hapart : ∀ r ∈ h.runs, (tiles r.1).IsChain (h.ApartBut x)) (hx : x ∈ free) :
    ∃ h1, h.write x (fun b => { b with isFree := false }) = some h1 ∧
      ∃ h', h1.removeFromFreeList x = some h' ∧ h'.runs = h.runs ∧
        h'.Ordered tiles (free.erase x) ∧ Taken h tiles h' tiles [x] ∧
        (h'.block x).size = (h.block x).size := by
  have ht : h.Tile tiles x := hs.inside x hx
  obtain ⟨h1,he1,hm⟩ := write_mark (hs.tile_header ht).1 false
  obtain ⟨h2,he2,hr,hs2⟩ := removeFromFreeList_spec (hm.shaped hs) hx
  have hruns : h2.runs = h.runs := hr.runs.trans hm.runs
  have hfree : ∀ a, (h2.block a).isFree = if a = x then false else (h.block a).isFree :=
    fun a => (hr.isFree a).trans (hm.isFree a)
  have hsize : ∀ a, (h2.block a).size = (h.block a).size :=
    fun a => (hr.size a).trans (hm.size a)
  refine ⟨h1,he1,h2,he2,hruns,⟨hs2,fun a => ?_,fun r hr' => ?_⟩,⟨fun a => ?_,fun a _ => hsize a,?_⟩,
    hsize x⟩
  · rw [hs.nodup.mem_erase_iff,hexact,tile_runs hruns,hfree]
    by_cases hax : a = x
    · simp [hax]
    · simp [hax]
  · refine (hapart r (hruns ▸ hr')).imp fun a b hab => ?_
    rintro ⟨ha,hb⟩
    rw [hfree] at ha hb
    have hax : a ≠ x := fun he => by simp [he] at ha
    have hbx : b ≠ x := fun he => by simp [he] at hb
    rw [if_neg hax] at ha
    rw [if_neg hbx] at hb
    exact hab hax hbx ⟨ha,hb⟩
  · rw [Used,Used,tile_runs hruns,hfree]
    by_cases hax : a = x
    · simp [hax,ht]
    · simp [hax]
  · intro a hax ha
    exact hr.marked (hm.marked ha fun he => absurd he (by simpa using hax))

section
variable (ho : h.Ordered tiles free)
include ho

theorem carve_spec (hx : x ∈ free) {size : Nat} (hfit : size + headerSize + 16 ≤ (h.block x).size)
    (hsize : 16 ∣ size) :
    ∃ h1, h.splitOff x size = some h1 ∧
      ∃ h', h1.addToFreeList (x + headerSize + size) = some h' ∧ h'.runs = h.runs ∧
        ∃ tiles' free', h'.Shaped tiles' free' ∧ x ∈ free' ∧
          (∀ a, a ∈ free' ↔ h'.Tile tiles' a ∧ (h'.block a).isFree = true) ∧
          (∀ r ∈ h'.runs, (tiles' r.1).IsChain (h'.ApartBut x)) ∧
          (∀ a, h'.Used tiles' a ↔ h.Used tiles a) ∧
          (∀ a, h.Used tiles a → (h'.block a).size = (h.block a).size) ∧
          (∀ a, a ≠ x → h.Marked a → h'.Marked a) ∧ (h'.block x).size = size := by
  have hs := ho.shaped
  have hxf : (h.block x).isFree = true := ((ho.exact x).mp hx).2
  obtain ⟨r,hr,hxr⟩ := hs.inside x hx
  obtain ⟨l,rest,ht⟩ := append_of_mem hxr
  obtain ⟨h1,he1,hs1,hruns1,hfar,hfree1,hnew1,hsx,hsize1,hmark1⟩ :=
    splitOff_spec hs hr ht hfit hsize
  generalize hnew : x + headerSize + size = new at *
  have hnot : ¬ h.Tile tiles new := by
    intro hn
    have hf := hfar new hn
    simp only [headerSize] at hf
    omega
  have htile : ∀ a, h1.Tile (update tiles r.1 (l ++ x :: new :: rest)) a ↔ a = new ∨ h.Tile tiles a := by
    intro a
    rw [tile_runs hruns1,tile_update hs hr,ht]
    constructor
    · simp only [mem_append,mem_cons]
      rintro ((hm | rfl | rfl | hm) | hm)
      · exact .inr ⟨r,hr,by simp [ht,hm]⟩
      · exact .inr ⟨r,hr,hxr⟩
      · exact .inl rfl
      · exact .inr ⟨r,hr,by simp [ht,hm]⟩
      · exact .inr hm.1
    rintro (rfl | hm)
    · exact .inl (by simp)
    by_cases hin : a ∈ l ++ x :: rest
    · refine .inl ?_
      simp only [mem_append,mem_cons] at hin ⊢
      tauto
    · exact .inr ⟨hm,hin⟩
  obtain ⟨h2,he2,hr2,hs2⟩ := addToFreeList_spec hs1 ((htile new).mpr (.inl rfl))
    fun hm => hnot (hs.inside new hm)
  have hruns : h2.runs = h.runs := hr2.runs.trans hruns1
  have htile2 : ∀ a, h2.Tile (update tiles r.1 (l ++ x :: new :: rest)) a ↔
      a = new ∨ h.Tile tiles a := fun a => (tile_runs hr2.runs).trans (htile a)
  have hfree2 : ∀ a, h.Tile tiles a → (h2.block a).isFree = (h.block a).isFree :=
    fun a ha => (hr2.isFree a).trans (hfree1 a ha)
  have hnew2 : (h2.block new).isFree = true := (hr2.isFree new).trans hnew1
  refine ⟨h1,he1,h2,he2,hruns,_,_,hs2,mem_cons_of_mem _ hx,fun a => ?_,?_,fun a => ?_,
    fun a ha => ?_,fun a hax ha => hr2.marked (hmark1 a ha hax),(hr2.size x).trans hsx⟩
  · rw [htile2,mem_cons,ho.exact]
    by_cases han : a = new
    · simp [han,hnew2]
    simp only [han,false_or]
    constructor
    · rintro ⟨h1,h2⟩
      exact ⟨h1,(hfree2 a h1).trans h2⟩
    · rintro ⟨h1,h2⟩
      exact ⟨h1,(hfree2 a h1).symm.trans h2⟩
  · have hold : ∀ xs : List Nat, (∀ a ∈ xs, h.Tile tiles a) → xs.IsChain h.Apart →
        xs.IsChain (h2.ApartBut x) := by
      intro xs hxs hc
      refine hc.imp_of_mem_imp fun a b ha hb hab _ _ => ?_
      rw [Apart,hfree2 a (hxs a ha),hfree2 b (hxs b hb)]
      exact hab
    intro r' hr'
    rw [hruns] at hr'
    by_cases heq : r' = r
    · subst heq
      rw [update_self]
      have hc := ho.apart r' hr
      have hall : ∀ a ∈ l ++ x :: rest, h.Tile tiles a := fun a ha => ⟨r',hr,ht ▸ ha⟩
      rw [ht,isChain_split] at hc
      refine isChain_split.mpr ⟨hold _ ?_ hc.1,isChain_cons.mpr ⟨?_,?_⟩⟩
      · exact fun a ha => hall a (by simp only [mem_append,mem_cons] at ha ⊢; tauto)
      · exact fun y _ hxx => absurd rfl hxx
      obtain ⟨hhead,hrest⟩ := isChain_cons.mp hc.2
      refine isChain_cons.mpr ⟨fun y hy _ _ => ?_,hold _ ?_ hrest⟩
      · have hy' : y ∈ rest := mem_of_mem_head? hy
        rw [Apart,hfree2 y (hall y (by simp [hy']))]
        exact fun hboth => hhead y hy ⟨hxf,hboth.2⟩
      · exact fun a ha => hall a (by simp [ha])
    · rw [update_of_ne fun hb => heq (hs.same_base hr hr' hb)]
      exact hold _ (fun a ha => ⟨r',hr',ha⟩) (ho.apart r' hr')
  · rw [Used,Used,htile2]
    constructor
    · rintro ⟨rfl | ha,hf⟩
      · rw [hnew2] at hf
        cases hf
      · exact ⟨ha,(hfree2 a ha).symm.trans hf⟩
    · rintro ⟨ha,hf⟩
      exact ⟨.inr ha,(hfree2 a ha).trans hf⟩
  have hax : a ≠ x := by
    rintro rfl
    rw [ha.2] at hxf
    cases hxf
  exact (hr2.size a).trans (hsize1 a ha.1 hax)

theorem take_spec (hx : x ∈ free) {size : Nat} (hfit : size ≤ (h.block x).size) (hsize : 16 ∣ size) :
    ∃ h', h.take x size = some (x + headerSize,h') ∧ h'.runs = h.runs ∧
      ∃ tiles' free', h'.Ordered tiles' free' ∧ Taken h tiles h' tiles' [x] ∧
        size ≤ (h'.block x).size ∧ (h'.block x).size < size + headerSize + 16 := by
  have hs := ho.shaped
  have hp := (hs.tile_header (hs.inside x hx)).1
  have hwide : (size + headerSize + 16) % 2^64 = size + headerSize + 16 := by
    obtain ⟨r,hr,hxr⟩ := hs.inside x hx
    have hb := (hs.chained r hr).tiled.bounds hxr
    obtain ⟨h0,hpage,-,hend⟩ := hs.pages r hr
    have hle := Nat.le_of_dvd h0 hpage
    simp only [extent,headerSize,pageSize] at hb hle ⊢
    exact Nat.mod_eq_of_lt (by omega)
  unfold take
  simp only [hp.mem_eq,bind_eq_bind,bind_some,hwide]
  split
  · rename_i hroom
    obtain ⟨h1,he1,h2,he2,hruns2,tiles2,free2,hs2,hx2,hexact2,hapart2,hused2,hsize2,hmark2,hsx⟩ :=
      carve_spec ho hx hroom hsize
    obtain ⟨h3,he3,h4,he4,hruns4,ho4,htaken,hsx4⟩ := claim_spec hs2 hexact2 hapart2 hx2
    refine ⟨h4,?_,hruns4.trans hruns2,tiles2,_,ho4,⟨fun a => ?_,fun a ha => ?_,fun a hax ha => ?_⟩,?_⟩
    · simp only [he1,bind_some,he2,he3,he4]
      rfl
    · rw [htaken.used,hused2]
    · exact (htaken.size a ((hused2 a).mpr ha)).trans (hsize2 a ha)
    · exact htaken.marked a hax (hmark2 a (by simpa using hax) ha)
    · omega
  obtain ⟨h3,he3,h4,he4,hruns4,ho4,htaken,hsx4⟩ := claim_spec hs ho.exact
    (fun r hr => (ho.apart r hr).imp fun a b hab _ _ => hab) hx
  refine ⟨h4,?_,hruns4,tiles,_,ho4,htaken,by rw [hsx4]; omega⟩
  simp only [bind_some,he3,he4]
  rfl

theorem grow_spec {base bytes : Nat} {grants : List Nat} (hfresh : Fresh h.runs bytes (base :: grants))
    (hlen : headerSize < bytes) (hb16 : 16 ∣ bytes) :
    ∃ h', h.addRun base bytes = some h' ∧ h'.runs = (base,bytes) :: h.runs ∧
      ∃ tiles' free', h'.Ordered tiles' free' ∧ Taken h tiles h' tiles' [] ∧
        base ∈ free' ∧ (h'.block base).size = bytes - headerSize := by
  obtain ⟨⟨hpos,hpage,hend,hfresh⟩,-⟩ := hfresh
  have hs := ho.shaped
  obtain ⟨h1,he1,hs1,hruns,hnot,htile,⟨hbase,hbytes⟩,hkeep,hmark⟩ :=
    addRun_spec hs hpos hpage hend hlen hb16 hfresh
  refine ⟨h1,he1,hruns,_,_,⟨hs1,fun a => ?_,fun r hr => ?_⟩,⟨fun a => ?_,fun a ha => (hkeep a ha.1).2,
    fun a _ ha => hmark a ha⟩,mem_cons_self,hbytes⟩
  · rw [htile,mem_cons,ho.exact]
    by_cases hab : a = base
    · simp [hab,hbase]
    simp only [hab,false_or]
    constructor
    · rintro ⟨h1,h2⟩
      exact ⟨h1,(hkeep a h1).1.trans h2⟩
    · rintro ⟨h1,h2⟩
      exact ⟨h1,(hkeep a h1).1.symm.trans h2⟩
  · rw [hruns] at hr
    rcases mem_cons.mp hr with rfl | hr
    · simp
    have hne : r.1 ≠ base := by
      intro he
      have hd := hfresh r hr
      have hp := (hs.pages r hr).2.2.1
      omega
    rw [update_of_ne hne]
    refine (ho.apart r hr).imp_of_mem_imp fun a b ha hb hab => ?_
    rw [Apart,(hkeep a ⟨r,hr,ha⟩).1,(hkeep b ⟨r,hr,hb⟩).1]
    exact hab
  rw [Used,Used,htile]
  simp only [not_mem_nil,or_false]
  constructor
  · rintro ⟨rfl | ha,hf⟩
    · rw [hbase] at hf
      cases hf
    · exact ⟨ha,(hkeep a ha).1.symm.trans hf⟩
  · rintro ⟨ha,hf⟩
    exact ⟨.inr ha,(hkeep a ha).1.trans hf⟩

end

section
variable {size : Nat} (hsize : 16 ∣ size) (ho : h.Ordered tiles free)
include hsize ho

theorem attempt_spec :
    (h.firstFit size h.walkLimit h.freeList = some 0 ∧ ∀ a ∈ free, (h.block a).size < size) ∨
    ∃ x h', x ≠ 0 ∧ (x ∈ free ∧ size ≤ (h.block x).size) ∧ h.firstFit size h.walkLimit h.freeList = some x ∧
      h.take x size = some (x + headerSize,h') ∧
      ∃ tiles' free', h'.Ordered tiles' free' ∧ ¬ h.Used tiles x ∧ Taken h tiles h' tiles' [x] ∧
        size ≤ (h'.block x).size ∧ (h'.block x).size < size + headerSize + 16 := by
  have hs := ho.shaped
  rw [hs.head]
  rcases firstFit_spec (fun a ha => (hs.tile_header (hs.inside a ha)).1) hs.free_nonzero hs.links
    hs.free_length with hno | ⟨x,hx,he,hfit⟩
  · exact .inl hno
  obtain ⟨h',htake,-,tiles',free',ho',htaken,hle⟩ := take_spec ho hx hfit hsize
  refine .inr ⟨x,h',fun h0 => hs.free_nonzero (h0 ▸ hx),⟨hx,hfit⟩,he,htake,tiles',free',ho',?_,htaken,hle⟩
  intro hu
  have hf := ((ho.exact x).mp hx).2
  rw [hu.2] at hf
  cases hf

theorem kmallocRounded_spec {grants : List Nat}
    (hfresh : Fresh h.runs (expansionPages size*pageSize) grants) :
    ∃ ptr h', h.kmallocRounded size grants = some (ptr,h') ∧
      ∃ tiles' free', h'.Ordered tiles' free' ∧ (ptr = 0 ∧ Taken h tiles h' tiles' [] ∨
          ∃ x, ptr = x + headerSize ∧ ¬ h.Used tiles x ∧ Taken h tiles h' tiles' [x] ∧
            size ≤ (h'.block x).size ∧ (h'.block x).size < size + headerSize + 16) := by
  induction grants generalizing h tiles free with
  | nil =>
    rcases attempt_spec hsize ho with ⟨he,-⟩ | ⟨x,h',hx,-,he,htake,tiles',free',ho',hnew,htaken,hle⟩
    · exact ⟨0,h,by simp [kmallocRounded,he],tiles,free,ho,.inl ⟨rfl,.refl h tiles⟩⟩
    · exact ⟨_,h',by simp [kmallocRounded,he,hx,htake],tiles',free',ho', .inr ⟨x,rfl,hnew,htaken,hle⟩⟩
  | cons base grants ih =>
    rcases attempt_spec hsize ho with ⟨he,-⟩ | ⟨x,h',hx,-,he,htake,tiles',free',ho',hnew,htaken,hle⟩
    · have hmin : 16 ≤ expansionPages size := Nat.le_max_left _ _
      obtain ⟨h1,he1,hruns,tiles1,free1,ho1,htaken1,-⟩ := grow_spec ho hfresh
        (by simp only [headerSize,pageSize]; omega) (by simp only [pageSize]; omega)
      obtain ⟨ptr,h2,he2,tiles2,free2,ho2,hcase⟩ := ih ho1 (hruns ▸ hfresh.2)
      refine ⟨ptr,h2,by simp [kmallocRounded,he,he1,he2],tiles2,free2,ho2,?_⟩
      rcases hcase with ⟨hp,ht2⟩ | ⟨x,hp,hnew,ht2,hle⟩
      · exact .inl ⟨hp,htaken1.after ht2⟩
      refine .inr ⟨x,hp,fun hu => hnew ?_,htaken1.after ht2,hle⟩
      exact (htaken1.used x).mpr (.inl hu)
    · exact ⟨_,h',by simp [kmallocRounded,he,hx,htake],tiles',free',ho', .inr ⟨x,rfl,hnew,htaken,hle⟩⟩

end

/-- A freed block `x` between `l` and `rest`; only at `x` can two neighbours be free. -/
structure Coalescing (h : Heap) (tiles : Nat → List Nat) (free : List Nat) (r : Nat × Nat)
    (l : List Nat) (x : Nat) (rest : List Nat) : Prop where
  shaped : h.Shaped tiles free
  exact : ∀ a, a ∈ free ↔ h.Tile tiles a ∧ (h.block a).isFree = true
  run : r ∈ h.runs
  around : tiles r.1 = l ++ x :: rest
  freed : (h.block x).isFree = true
  others : ∀ r' ∈ h.runs, r' ≠ r → (tiles r'.1).IsChain h.Apart
  left : l.IsChain h.Apart
  right : rest.IsChain h.Apart

theorem merge_spec {r : Nat × Nat} {l rest : List Nat} {y : Nat} (hs : h.Shaped tiles free)
    (hexact : ∀ a, a ∈ free ↔ h.Tile tiles a ∧ (h.block a).isFree = true) (hr : r ∈ h.runs)
    (ht : tiles r.1 = l ++ x :: y :: rest) (hx : (h.block x).isFree = true)
    (hy : (h.block y).isFree = true) :
    ∃ h1, h.removeFromFreeList y = some h1 ∧ ∃ h', h1.absorb x y = some h' ∧
      h'.runs = h.runs ∧ h'.Shaped (update tiles r.1 (l ++ x :: rest)) (free.erase y) ∧
      (∀ a, a ∈ free.erase y ↔ h'.Tile (update tiles r.1 (l ++ x :: rest)) a ∧
        (h'.block a).isFree = true) ∧
      (∀ a, (h'.block a).isFree = (h.block a).isFree) ∧
      Taken h tiles h' (update tiles r.1 (l ++ x :: rest)) [] := by
  have hyt : h.Tile tiles y := ⟨r,hr,by simp [ht]⟩
  have hyf : y ∈ free := (hexact y).mpr ⟨hyt,hy⟩
  have hnd := (hs.chained r hr).nodup
  obtain ⟨h1,he1,hr1,hs1⟩ := removeFromFreeList_spec hs hyf
  obtain ⟨h2,he2,hs2,hruns2,hpres2,hfree2,hmagic2,hsize2⟩ := absorb_spec hs1
    (show r ∈ h1.runs from hr1.runs ▸ hr) ht fun hm => (hs.nodup.mem_erase_iff.mp hm).1 rfl
  have hruns : h2.runs = h.runs := hruns2.trans hr1.runs
  have hfree : ∀ a, (h2.block a).isFree = (h.block a).isFree :=
    fun a => (hfree2 a).trans (hr1.isFree a)
  have htile : ∀ a, h2.Tile (update tiles r.1 (l ++ x :: rest)) a ↔ h.Tile tiles a ∧ a ≠ y := by
    intro a
    rw [tile_runs hruns,tile_update hs hr,ht]
    rw [ht,nodup_append',nodup_cons,nodup_cons,mem_cons] at hnd
    obtain ⟨-,⟨hxr,hyr,-⟩,hdis⟩ := hnd
    constructor
    · rintro (hm | ⟨ha,hm⟩)
      · refine ⟨⟨r,hr,?_⟩,?_⟩
        · rw [ht]
          simp only [mem_append,mem_cons] at hm ⊢
          tauto
        rintro rfl
        rcases mem_append.mp hm with hm | hm
        · exact hdis hm (by simp)
        rcases mem_cons.mp hm with rfl | hm
        · exact hxr (.inl rfl)
        · exact hyr hm
      · exact ⟨ha,fun he => hm (by simp [he])⟩
    rintro ⟨ha,hne⟩
    by_cases hin : a ∈ l ++ x :: y :: rest
    · refine .inl ?_
      simp only [mem_append,mem_cons] at hin ⊢
      tauto
    · exact .inr ⟨ha,hin⟩
  refine ⟨h1,he1,h2,he2,hruns,hs2,fun a => ?_,hfree,fun a => ?_,fun a ha => ?_,fun a _ ha hp => ?_⟩
  · rw [hs.nodup.mem_erase_iff,hexact,htile,hfree]
    tauto
  · rw [Used,Used,htile,hfree]
    simp only [not_mem_nil,or_false]
    constructor
    · exact fun hu => ⟨hu.1.1,hu.2⟩
    refine fun hu => ⟨⟨hu.1,?_⟩,hu.2⟩
    rintro rfl
    rw [hu.2] at hy
    cases hy
  · have hax : a ≠ x := by
      rintro rfl
      rw [ha.2] at hx
      cases hx
    exact (hsize2 a hax).trans (hr1.size a)
  · rw [hfree,hmagic2,hr1.magic]
    exact ha ((hr1.present a).mp ((hpres2 a).mp hp))

section
variable {r : Nat × Nat} {l rest : List Nat}

theorem Coalescing.fields (hc : Coalescing h tiles free r l x rest) :
    h.Present x ∧ (h.block x).nextPhys = rest.headD 0 ∧ (h.block x).prevPhys = l.getLastD 0 ∧
      ∀ a ∈ l ++ rest, h.Present a ∧ a ≠ 0 := by
  have hs := hc.shaped
  have hch := hs.chained r hc.run
  rw [hc.around] at hch
  obtain ⟨hprev,hnext,-,-⟩ := hch.linked.at
  refine ⟨(hch.header x (by simp)).1,hnext,hprev,fun a ha => ?_⟩
  have ha' : a ∈ l ++ x :: rest := by
    simp only [mem_append,mem_cons] at ha ⊢
    tauto
  exact ⟨(hch.header a ha').1,
    Nat.pos_iff_ne_zero.mp (hs.tile_pos ⟨r,hc.run,by rw [hc.around]; exact ha'⟩)⟩

theorem chain_same {xs : List Nat} (hf : ∀ a, (h'.block a).isFree = (h.block a).isFree)
    (hc : xs.IsChain h.Apart) : xs.IsChain h'.Apart := by
  refine hc.imp fun a b hab => ?_
  rw [Apart,hf,hf]
  exact hab

theorem coalesceNext_spec (hc : Coalescing h tiles free r l x rest) :
    ∃ h', h.coalesceNext x = some h' ∧ h'.runs = h.runs ∧
      ∃ tiles' free' rest', Coalescing h' tiles' free' r l x rest' ∧
        (∀ y ∈ rest'.head?, (h'.block y).isFree = false) ∧ Taken h tiles h' tiles' [] := by
  obtain ⟨hp,hnext,-,hall⟩ := hc.fields
  unfold coalesceNext
  simp only [hp.mem_eq,bind_eq_bind,bind_some,hnext]
  cases rest with
  | nil =>
    exact ⟨h,by simp,rfl,tiles,free,[],hc,by simp,.refl h tiles⟩
  | cons n rest =>
    obtain ⟨hpn,hn0⟩ := hall n (by simp)
    simp only [headD_cons,hn0,if_false,hpn.mem_eq,bind_some]
    by_cases hfn : (h.block n).isFree = true
    · rw [if_pos hfn]
      obtain ⟨h1,he1,h2,he2,hruns,hs2,hexact2,hfree2,htaken⟩ :=
        merge_spec hc.shaped hc.exact hc.run hc.around hc.freed hfn
      obtain ⟨hhead,hrest⟩ := isChain_cons.mp hc.right
      refine ⟨h2,by simp only [he1,bind_some,he2],hruns,_,_,rest,
        ⟨hs2,hexact2,hruns ▸ hc.run,by simp,(hfree2 x).trans hc.freed,fun r' hr' hne => ?_,
          chain_same hfree2 hc.left,chain_same hfree2 hrest⟩,fun y hy => ?_,htaken⟩
      · rw [hruns] at hr'
        rw [update_of_ne fun hb => hne (hc.shaped.same_base hc.run hr' hb)]
        exact chain_same hfree2 (hc.others r' hr' hne)
      · rw [hfree2,← Bool.not_eq_true]
        exact fun hfy => hhead y hy ⟨hfn,hfy⟩
    rw [if_neg hfn]
    refine ⟨h,rfl,rfl,tiles,free,_,hc,fun y hy => ?_,.refl h tiles⟩
    obtain rfl : n = y := by simpa using hy
    simpa using hfn

theorem coalescePrev_spec (hc : Coalescing h tiles free r l x rest)
    (hhead : ∀ y ∈ rest.head?, (h.block y).isFree = false) :
    ∃ h', h.coalescePrev x = some h' ∧
      ∃ tiles' free', h'.Ordered tiles' free' ∧ Taken h tiles h' tiles' [] := by
  obtain ⟨hp,-,hprev,hall⟩ := hc.fields
  have hapart : ∀ z, ∀ y ∈ rest.head?, h.Apart z y := by
    intro z y hy hboth
    have hf := hboth.2
    rw [hhead y hy] at hf
    cases hf
  unfold coalescePrev
  simp only [hp.mem_eq,bind_eq_bind,bind_some,hprev]
  rcases eq_nil_or_concat l with rfl | ⟨l,p,rfl⟩
  · refine ⟨h,by simp,tiles,free,⟨hc.shaped,hc.exact,fun r' hr' => ?_⟩,.refl h tiles⟩
    by_cases heq : r' = r
    · subst heq
      rw [hc.around]
      exact isChain_cons.mpr ⟨hapart x,hc.right⟩
    · exact hc.others r' hr' heq
  simp only [concat_eq_append] at *
  obtain ⟨hpp,hp0⟩ := hall p (by simp)
  have hlast : (l ++ [p]).getLastD 0 = p := by simp
  simp only [hlast,hp0,if_false,hpp.mem_eq,bind_some]
  by_cases hfp : (h.block p).isFree = true
  · rw [if_pos hfp]
    have ht : tiles r.1 = l ++ p :: x :: rest := by simpa using hc.around
    obtain ⟨h1,he1,h2,he2,hruns,hs2,hexact2,hfree2,htaken⟩ :=
      merge_spec hc.shaped hc.exact hc.run ht hfp hc.freed
    refine ⟨h2,by simp only [he1,bind_some,he2],_,_,⟨hs2,hexact2,fun r' hr' => ?_⟩,htaken⟩
    rw [hruns] at hr'
    by_cases heq : r' = r
    · subst heq
      rw [update_self]
      refine chain_same hfree2 (isChain_split.mpr ⟨hc.left,?_⟩)
      exact isChain_cons.mpr ⟨hapart p,hc.right⟩
    · rw [update_of_ne fun hb => heq (hc.shaped.same_base hc.run hr' hb)]
      exact chain_same hfree2 (hc.others r' hr' heq)
  rw [if_neg hfp]
  refine ⟨h,rfl,tiles,free,⟨hc.shaped,hc.exact,fun r' hr' => ?_⟩,.refl h tiles⟩
  by_cases heq : r' = r
  · subst heq
    rw [hc.around]
    refine hc.left.append (isChain_cons.mpr ⟨hapart x,hc.right⟩) ?_
    intro a ha b hb hboth
    obtain rfl : p = a := by simpa using ha
    exact hfp hboth.1
  · exact hc.others r' hr' heq

end

theorem kfree_spec (ho : h.Ordered tiles free) (hu : h.Used tiles x) :
    ∃ h', h.kfree (x + headerSize) = some h' ∧ ∃ tiles' free', h'.Ordered tiles' free' ∧
        (∀ a, h'.Used tiles' a ↔ h.Used tiles a ∧ a ≠ x) ∧
        (∀ a, h.Used tiles a → a ≠ x → (h'.block a).size = (h.block a).size) ∧
        (∀ a, h.Marked a → h'.Marked a) ∧ h'.Marked x := by
  have hs := ho.shaped
  obtain ⟨hp,hmagic,-⟩ := hs.tile_header hu.1
  obtain ⟨h1,he1,hm1⟩ := write_mark hp true
  have hxf : x ∉ free := by
    intro hm
    have hf := ((ho.exact x).mp hm).2
    rw [hu.2] at hf
    cases hf
  obtain ⟨h2,he2,hr2,hs2⟩ := addToFreeList_spec (hm1.shaped hs) ((tile_runs hm1.runs).mpr hu.1) hxf
  have hruns : h2.runs = h.runs := hr2.runs.trans hm1.runs
  have hfree : ∀ a, (h2.block a).isFree = if a = x then true else (h.block a).isFree :=
    fun a => (hr2.isFree a).trans (hm1.isFree a)
  have hsize : ∀ a, (h2.block a).size = (h.block a).size :=
    fun a => (hr2.size a).trans (hm1.size a)
  have hmark : ∀ a, h.Marked a → h2.Marked a := fun a ha => hr2.marked (hm1.marked ha fun _ => rfl)
  have hmarkx : h2.Marked x := by
    intro _
    refine ⟨by simp [hfree],?_⟩
    rw [hr2.magic,hm1.block]
    exact hmagic
  obtain ⟨r,hr,hxr⟩ := hu.1
  obtain ⟨l,rest,ht⟩ := append_of_mem hxr
  have hnd := (hs.chained r hr).nodup
  rw [ht,nodup_append',nodup_cons] at hnd
  have hchain : ∀ xs : List Nat, x ∉ xs → xs.IsChain h.Apart → xs.IsChain h2.Apart := by
    intro xs hx hc
    refine hc.imp_of_mem_imp fun a b ha hb hab => ?_
    rw [Apart,hfree,hfree,if_neg (ne_of_mem_of_not_mem ha hx),if_neg (ne_of_mem_of_not_mem hb hx)]
    exact hab
  have hc : Coalescing h2 tiles (x :: free) r l x rest := by
    have hap := ho.apart r hr
    rw [ht,isChain_append] at hap
    refine ⟨hs2,fun a => ?_,hruns ▸ hr,ht,by simp [hfree],fun r' hr' hne => ?_,
      hchain l (fun hm => hnd.2.2 hm (by simp)) hap.1,
      hchain rest hnd.2.1.1 (isChain_cons.mp hap.2.1).2⟩
    · rw [mem_cons,ho.exact,tile_runs hruns,hfree]
      by_cases hax : a = x
      · simp [hax,hu.1]
      · simp [hax]
    · rw [hruns] at hr'
      exact hchain _ (fun hm => hne (hs.same_run hr hr' hxr hm)) (ho.apart r' hr')
  obtain ⟨h3,he3,-,tiles3,free3,rest3,hc3,hhead3,htaken3⟩ := coalesceNext_spec hc
  obtain ⟨h4,he4,tiles4,free4,ho4,htaken4⟩ := coalescePrev_spec hc3 hhead3
  have htaken := htaken3.after htaken4
  have hused2 : ∀ a, h2.Used tiles a ↔ h.Used tiles a ∧ a ≠ x := by
    intro a
    rw [Used,Used,tile_runs hruns,hfree]
    by_cases hax : a = x
    · simp [hax]
    · simp [hax]
  refine ⟨h4,?_,tiles4,free4,ho4,fun a => ?_,fun a ha hax => ?_,
    fun a ha => htaken.marked a (by simp) (hmark a ha),htaken.marked x (by simp) hmarkx⟩
  · have hne : x + headerSize ≠ 0 := by simp [headerSize]
    simp only [kfree,hne,if_false,Nat.add_sub_cancel,hp.mem_eq,bind_eq_bind,bind_some,
      hmagic,ne_eq,not_true_eq_false,hu.2,Bool.false_eq_true,he1,he2,he3,he4]
  · rw [htaken.used,hused2]
    simp
  · exact (htaken.size a ((hused2 a).mpr ⟨ha,hax⟩)).trans (hsize a)

end Heap
end Rucux.Memory
