import Rucux.Memory.HeapCalls

namespace Rucux.Memory
open Lib List Heap

namespace Heap
variable {h h' : Heap} {tiles : Nat → List Nat} {free : List Nat} {a x : Nat}

theorem Ordered.congr (ho : h.Ordered tiles free) (hruns : h'.runs = h.runs)
    (hlist : h'.freeList = h.freeList) (hmem : ∀ a, h.Tile tiles a → h'.mem a = h.mem a) :
    h'.Ordered tiles free := by
  have hs := ho.shaped
  have hb : ∀ a, h.Tile tiles a → h'.block a = h.block a := fun a ha => by
    simp only [block,hmem a ha]
  refine ⟨⟨by rw [hruns]; exact hs.pages,by rw [hruns]; exact hs.apart,?_,hs.links.congr ?_ ?_,
    hlist.trans hs.head,hs.nodup,by rw [hruns]; exact hs.inside⟩,fun a => ?_,?_⟩
  · rw [hruns]
    exact fun r hr => (hs.chained r hr).congr fun a ha => hmem a ⟨r,hr,ha⟩
  · exact fun a ha => by simp only [nextFree,hb a (hs.inside a ha)]
  · exact fun a ha => by simp only [prevFree,hb a (hs.inside a ha)]
  · rw [tile_runs hruns,ho.exact]
    constructor
    all_goals
      rintro ⟨h1,h2⟩
      exact ⟨h1,hb a h1 ▸ h2⟩
  rw [hruns]
  intro r hr
  refine (ho.apart r hr).imp_of_mem_imp fun a b ha hb' hab => ?_
  rw [Apart,hb a ⟨r,hr,ha⟩,hb b ⟨r,hr,hb'⟩]
  exact hab

theorem handOut_mem (hs : h.Shaped tiles free) (hx : h.Tile tiles x) (ha : h.Tile tiles a) :
    (h.handOut (x + headerSize) (h.block x).size).mem a = h.mem a := by
  simp only [handOut]
  refine if_neg ?_
  by_cases hax : a = x
  · omega
  have hd := hs.tile_disjoint hx ha (Ne.symm hax)
  simp only [extent] at hd
  omega

theorem Marked.handOut (hm : h.Marked a) (ptr size : Nat) : (h.handOut ptr size).Marked a := by
  unfold Marked Present block Heap.handOut at *
  dsimp only at *
  split
  · simp
  · exact hm

theorem payload_eq (h : Heap) (x : Nat) : h.payload (x + headerSize) = (h.block x).size := by
  simp only [payload,Nat.add_sub_cancel,block]
  cases h.mem x <;> rfl

structure World.Ok (w : World) (tiles : Nat → List Nat) (free : List Nat) : Prop where
  ordered : w.heap.Ordered tiles free
  live : ∀ ptr, ptr ∈ w.live.map Prod.fst ↔ ∃ x, ptr = x + headerSize ∧ w.heap.Used tiles x
  once : (w.live.map Prod.fst).Nodup
  room : ∀ p ∈ w.live, roundUp p.2 ≤ w.heap.payload p.1
  freed : ∀ ptr ∈ w.freed, ∃ y, ptr = y + headerSize ∧ w.heap.Marked y

theorem kfree_marked (hm : h.Marked x) (hp : h.Present x) : h.kfree (x + headerSize) = some h := by
  obtain ⟨hfree,hmagic⟩ := hm hp
  simp [kfree,hp.mem_eq,hmagic,hfree]

section
variable {w : World} (ho : w.Ok tiles free)
include ho

theorem World.Ok.room_of (hsize : ∀ a, w.heap.Used tiles a → (h'.block a).size = (w.heap.block a).size) :
    ∀ p ∈ w.live, roundUp p.2 ≤ h'.payload p.1 := by
  intro p hp
  obtain ⟨x,hx,hu⟩ := (ho.live p.1).mp (mem_map_of_mem hp)
  have hr := ho.room p hp
  rw [hx,payload_eq] at hr ⊢
  rw [hsize x hu]
  exact hr

theorem World.kmalloc_ok {size : Nat} {grants : List Nat} (hv : w.Valid (.kmalloc size grants)) :
    ∃ w', w.step (.kmalloc size grants) = some w' ∧ ∃ tiles' free', w'.Ok tiles' free' := by
  have h16 : 16 ∣ roundUp size := Nat.dvd_mul_left _ _
  obtain ⟨ptr,h1,he,tiles1,free1,ho1,hcase⟩ := kmallocRounded_spec h16 ho.ordered hv
  have hcall : w.heap.kmalloc size grants = some (ptr,h1) := he
  rcases hcase with ⟨rfl,ht⟩ | ⟨x,rfl,hnew,ht,hfit,-⟩
  · refine ⟨{ w with heap := h1 },by simp [step,hcall],tiles1,free1,ho1,fun p => ?_,ho.once,
      ho.room_of ht.size,fun p hp => ?_⟩
    · simp only [ho.live,ht.used,not_mem_nil,or_false]
    obtain ⟨y,hy,hm⟩ := ho.freed p hp
    exact ⟨y,hy,ht.marked y (by simp) hm⟩
  have hx : h1.Used tiles1 x := (ht.used x).mpr (.inr (by simp))
  have hmem : ∀ a, h1.Tile tiles1 a →
      (h1.handOut (x + headerSize) (h1.block x).size).mem a = h1.mem a :=
    fun a ha => handOut_mem ho1.shaped hx.1 ha
  have hne : x + headerSize ≠ 0 := by simp [headerSize]
  refine ⟨_,by simp only [step,hcall,Option.bind_eq_bind,Option.bind_some,hne,if_false]; rfl,
    tiles1,free1,?_⟩
  rw [payload_eq]
  generalize hh2 : h1.handOut (x + headerSize) (h1.block x).size = h2 at hmem ⊢
  have hruns : h2.runs = h1.runs := hh2 ▸ rfl
  have hb : ∀ a, h1.Tile tiles1 a → h2.block a = h1.block a := fun a ha => by
    simp only [block,hmem a ha]
  have hused : ∀ a, h2.Used tiles1 a ↔ w.heap.Used tiles a ∨ a = x := by
    intro a
    rw [← mem_singleton,← ht.used,Used,Used,tile_runs hruns]
    constructor
    all_goals
      rintro ⟨h1,h2⟩
      exact ⟨h1,hb a h1 ▸ h2⟩
  refine ⟨ho1.congr hruns (hh2 ▸ rfl) hmem,fun p => ?_,?_,fun p hp => ?_,fun p hp => ?_⟩
  · simp only [map_cons,mem_cons,ho.live,hused]
    constructor
    · rintro (rfl | ⟨y,rfl,hy⟩)
      · exact ⟨x,rfl,.inr rfl⟩
      · exact ⟨y,rfl,.inl hy⟩
    rintro ⟨y,rfl,hy | rfl⟩
    · exact .inr ⟨y,rfl,hy⟩
    · exact .inl rfl
  · refine nodup_cons.mpr ⟨fun hm => ?_,ho.once⟩
    obtain ⟨y,hy,hu⟩ := (ho.live _).mp hm
    exact hnew ((show x = y by omega) ▸ hu)
  · rcases mem_cons.mp hp with rfl | hp
    · rw [payload_eq,hb x hx.1]
      exact hfit
    · refine ho.room_of (fun a ha => ?_) p hp
      rw [hb a ((ht.used a).mpr (.inl ha)).1,ht.size a ha]
  obtain ⟨hp,hpx⟩ := mem_filter.mp hp
  obtain ⟨y,rfl,hm⟩ := ho.freed p hp
  have hyx : y ≠ x := by
    rintro rfl
    simp at hpx
  refine ⟨y,rfl,?_⟩
  rw [← hh2]
  exact (ht.marked y (by simpa using hyx) hm).handOut _ _

theorem World.kfree_ok {ptr : Nat} (hv : w.Valid (.kfree ptr)) :
    ∃ w', w.step (.kfree ptr) = some w' ∧ ∃ tiles' free', w'.Ok tiles' free' := by
  by_cases hlive : ptr ∈ w.live.map Prod.fst
  · obtain ⟨x,rfl,hu⟩ := (ho.live ptr).mp hlive
    obtain ⟨h1,he,tiles1,free1,ho1,hused,hsize,hmark,hmarkx⟩ := kfree_spec ho.ordered hu
    refine ⟨⟨h1,w.live.filter (·.1 ≠ x + headerSize),(x + headerSize) :: w.freed⟩,
      by simp only [step,he,Option.bind_eq_bind,Option.bind_some,hlive,if_true],
      tiles1,free1,ho1,fun p => ?_,?_,fun p hp => ?_,fun p hp => ?_⟩
    · have hiff : p ∈ (w.live.filter (·.1 ≠ x + headerSize)).map Prod.fst ↔
          p ∈ w.live.map Prod.fst ∧ p ≠ x + headerSize := by
        simp only [mem_map,mem_filter,decide_eq_true_eq]
        constructor
        · rintro ⟨q,⟨h1,h2⟩,rfl⟩
          exact ⟨⟨q,h1,rfl⟩,h2⟩
        · rintro ⟨⟨q,h1,rfl⟩,h2⟩
          exact ⟨q,⟨h1,h2⟩,rfl⟩
      rw [hiff,ho.live]
      constructor
      · rintro ⟨⟨y,rfl,hy⟩,hne⟩
        exact ⟨y,rfl,(hused y).mpr ⟨hy,fun he => hne (by rw [he])⟩⟩
      rintro ⟨y,rfl,hy⟩
      obtain ⟨h1,h2⟩ := (hused y).mp hy
      exact ⟨⟨y,rfl,h1⟩,by omega⟩
    · exact ho.once.sublist (filter_sublist.map _)
    · obtain ⟨hp,hne⟩ := mem_filter.mp hp
      obtain ⟨y,hy,hu'⟩ := (ho.live p.1).mp (mem_map_of_mem hp)
      have hyx : y ≠ x := fun he => by simp [hy,he] at hne
      have hr := ho.room p hp
      rw [hy,payload_eq] at hr ⊢
      rw [hsize y hu' hyx]
      exact hr
    rcases mem_cons.mp hp with rfl | hp
    · exact ⟨x,rfl,hmarkx⟩
    obtain ⟨y,hy,hm⟩ := ho.freed p hp
    exact ⟨y,hy,hmark y hm⟩
  -- null, or a pointer freed before: nothing happens
  · have hsame : w.heap.kfree ptr = some w.heap := by
      rcases hv with rfl | hv | ⟨hfreed,hp⟩
      · rfl
      · exact absurd hv hlive
      obtain ⟨y,rfl,hm⟩ := ho.freed ptr hfreed
      exact kfree_marked hm (by rwa [Nat.add_sub_cancel] at hp)
    exact ⟨w,by simp only [step,hsame,Option.bind_eq_bind,Option.bind_some,hlive,if_false], tiles,free,ho⟩

end

section
variable {initial : Nat} (hfresh : initial = 0 ∨ Fresh [] (1024*pageSize) [initial])
include hfresh

theorem init_ok : ∃ h, init initial = some h ∧ ∃ tiles free, World.Ok ⟨h,[],[]⟩ tiles free := by
  have hempty : (⟨fun _ => none,0,[]⟩ : Heap).Ordered (fun _ => []) [] := by
    refine ⟨⟨?_,?_,?_,trivial,rfl,.nil,?_⟩,?_,?_⟩
    all_goals simp [Tile]
  have hworld : ∀ {h tiles free}, Taken ⟨fun _ => none,0,[]⟩ (fun _ => []) h tiles [] →
      h.Ordered tiles free → World.Ok ⟨h,[],[]⟩ tiles free := by
    intro h tiles free ht ho
    refine ⟨ho,fun ptr => ?_,.nil,by simp,by simp⟩
    simp only [ht.used]
    simp [Used,Tile]
  unfold init
  by_cases h0 : initial = 0
  · exact ⟨_,by simp [h0],_,_,hworld (.refl _ _) hempty⟩
  obtain ⟨h1,he,-,tiles1,free1,ho1,ht,-⟩ := grow_spec hempty (hfresh.resolve_left h0)
    (by decide) (by decide)
  exact ⟨h1,by simp [h0,he],tiles1,free1,hworld ht ho1⟩

theorem run_ok (es : List Event) (hok : (machine initial).Along Valid (machine initial).initial es) :
    ∃ w, (machine initial).run es = some w ∧ ∃ tiles free, w.Ok tiles free := by
  refine (machine initial).runFrom_invariant Valid
    (I := fun o => ∃ w, o = some w ∧ ∃ tiles free, World.Ok w tiles free) ?_ ?_ es hok
  · rintro o e ⟨w,rfl,tiles,free,ho⟩ hv
    have hv' := hv w rfl
    cases e with
    | kmalloc size grants => exact World.kmalloc_ok ho hv'
    | kfree ptr => exact World.kfree_ok ho hv'
  · obtain ⟨h,he,tiles,free,ho⟩ := init_ok hfresh
    exact ⟨_,by simp only [machine,he]; rfl,tiles,free,ho⟩

end

end Heap

/-- However `kmalloc` and `kfree` are called, no call fails. The blocks of each run of pages tile it with no two
neighbours free, the free list has exactly the free blocks, live blocks are disjoint and large enough, and freeing a
pointer again changes nothing. -/
theorem heap_representation (initial : Nat)
    (hfresh : initial = 0 ∨ Heap.Fresh [] (1024*pageSize) [initial]) (es : List Heap.Event)
    (hok : (machine initial).Along Heap.Valid (machine initial).initial es) :
    ∃ w, (machine initial).run es = some w ∧ ∃ tiles free,
      (∀ r ∈ w.heap.runs, w.heap.Chained r (tiles r.1) ∧ (tiles r.1).IsChain w.heap.Apart) ∧
      (Linked w.heap.nextFree w.heap.prevFree 0 free 0 ∧ w.heap.freeList = free.headD 0 ∧
        free.Nodup ∧ ∀ a, a ∈ free ↔ w.heap.Tile tiles a ∧ (w.heap.block a).isFree = true) ∧
      (∀ p ∈ w.live, 16 ∣ p.1 ∧ roundUp p.2 ≤ w.heap.payload p.1 ∧
        ∃ x, p.1 = x + headerSize ∧ w.heap.Used tiles x) ∧
      (w.live.Pairwise fun p q =>
        p.1 + w.heap.payload p.1 ≤ q.1 ∨ q.1 + w.heap.payload q.1 ≤ p.1) ∧
      ∀ ptr ∈ w.freed, w.heap.Present (ptr - headerSize) → w.heap.kfree ptr = some w.heap := by
  obtain ⟨w,hrun,tiles,free,ho⟩ := run_ok hfresh es hok
  have hs := ho.ordered.shaped
  have hlive : ∀ p ∈ w.live, ∃ x, p.1 = x + headerSize ∧ w.heap.Used tiles x :=
    fun p hp => (ho.live p.1).mp (mem_map_of_mem hp)
  refine ⟨w,hrun,tiles,free,fun r hr => ⟨hs.chained r hr,ho.ordered.apart r hr⟩,
    ⟨hs.links,hs.head,hs.nodup,ho.ordered.exact⟩,fun p hp => ?_,?_,fun ptr hp hpres => ?_⟩
  · obtain ⟨x,hx,hu⟩ := hlive p hp
    refine ⟨?_,ho.room p hp,x,hx,hu⟩
    rw [hx]
    exact Nat.dvd_add (hs.tile_aligned hu.1) (by decide)
  · refine (pairwise_map.mp ho.once).imp_of_mem fun hp hq hne => ?_
    obtain ⟨x,hx,hux⟩ := hlive _ hp
    obtain ⟨y,hy,huy⟩ := hlive _ hq
    have hd := hs.tile_disjoint hux.1 huy.1 fun he => hne (by rw [hx,hy,he])
    rw [hx,hy,payload_eq,payload_eq]
    simp only [extent] at hd
    omega
  · obtain ⟨y,rfl,hm⟩ := ho.freed ptr hp
    exact kfree_marked hm (by simpa using hpres)

namespace Heap

/-- Two blocks are taken from fresh pages and freed in turn, the first of them twice; a small
block then comes from what they have become. -/
def takenAndFreed : List Event :=
  [.kmalloc 100 [0x10000],.kmalloc 40 [],.kfree 0x10030,.kfree 0x10030,.kfree 0x100d0,
    .kfree 0x100d0,.kmalloc 5 []]

end Heap

theorem heap_representation_takenAndFreed : ∃ w,
    (machine 0).run takenAndFreed = some w ∧ w.live = [(0x10030,5)] ∧
    ∃ tiles, ∃ free : List Nat, ∀ a, a ∈ free ↔ w.heap.Tile tiles a ∧ (w.heap.block a).isFree = true := by
  obtain ⟨w,hrun,tiles,free,-,⟨-,-,-,hfree⟩,-⟩ :=
    heap_representation 0 (.inl rfl) takenAndFreed (by decide +kernel)
  have hlive : ((machine 0).run takenAndFreed).map Heap.World.live =
      some [(0x10030,5)] := by decide +kernel
  refine ⟨w,hrun,?_,tiles,free,hfree⟩
  rw [hrun] at hlive
  exact Option.some.inj hlive

open Option

namespace Heap
variable {h h' : Heap} {tiles : Nat → List Nat} {free grants : List Nat} {a size ptr : Nat}

def largestHonest : Nat := 2^64 - 4144

theorem roundUp_ge (hs : size ≤ largestHonest) : size ≤ roundUp size := by
  unfold roundUp largestHonest at *
  omega

theorem expansion_fits (hs : size ≤ largestHonest) :
    roundUp size + headerSize ≤ expansionPages (roundUp size)*pageSize := by
  unfold expansionPages roundUp headerSize pageSize largestHonest at *
  omega

theorem expansionPages_wraps (hlow : largestHonest < size) (hhigh : size ≤ 2^64 - 16) :
    largestHonest < roundUp size ∧ expansionPages (roundUp size) = 16 := by
  unfold expansionPages roundUp headerSize pageSize largestHonest at *
  omega

theorem roundUp_wraps (hlow : 2^64 - 16 < size) (hhigh : size < 2^64) : roundUp size = 0 := by
  unfold roundUp
  omega

theorem Ordered.size_le (ho : h.Ordered tiles free) (ha : a ∈ free) : (h.block a).size ≤ largestHonest := by
  obtain ⟨r,hr,har⟩ := ho.shaped.inside a ha
  have hbounds := (ho.shaped.chained r hr).tiled.bounds har
  obtain ⟨hpos,hpage,-,hend⟩ := ho.shaped.pages r hr
  simp only [extent,headerSize,pageSize,largestHonest] at *
  omega

theorem grow_attempt (ho : h.Ordered tiles free) {base : Nat}
    (hfresh : Fresh h.runs (expansionPages size*pageSize) (base :: grants))
    (hnone : h.firstFit size h.walkLimit h.freeList = some 0) :
    ∃ (h' : Heap) (tiles' : Nat → List Nat) (free' : List Nat),
      h.kmallocRounded size (base :: grants) = h'.kmallocRounded size grants ∧
      h'.runs = (base,expansionPages size*pageSize) :: h.runs ∧ h'.Ordered tiles' free' ∧ base ∈ free' ∧
      (h'.block base).size = expansionPages size*pageSize - headerSize ∧
      Fresh h'.runs (expansionPages size*pageSize) grants := by
  have hmin : 16 ≤ expansionPages size := Nat.le_max_left _ _
  have hlen : headerSize < expansionPages size*pageSize := by
    simp only [headerSize,pageSize]
    omega
  have h16 : 16 ∣ expansionPages size*pageSize := by
    simp only [pageSize]
    omega
  obtain ⟨h₁,hadd,hruns,tiles₁,free₁,ho₁,-,hbase,hbytes⟩ := grow_spec ho hfresh hlen h16
  exact ⟨h₁,tiles₁,free₁,by simp [kmallocRounded,hnone,hadd],hruns,ho₁,hbase,hbytes,by rw [hruns]; exact hfresh.2⟩

theorem null_fits (hsize : 16 ∣ size) (ho : h.Ordered tiles free)
    (hcall : h.kmallocRounded size grants = some (0,h')) : ∀ a ∈ free, (h.block a).size < size := by
  rcases attempt_spec hsize ho with ⟨-,hnone⟩ | ⟨x,h₁,hx,-,he,htake,-⟩
  · exact hnone
  cases grants with
  | nil => simp [kmallocRounded,he,hx,htake,headerSize] at hcall
  | cons base grants => simp [kmallocRounded,he,hx,htake,headerSize] at hcall

/-- Where the pages that are asked for are enough, null is returned only if there are none, and
nothing has changed then. -/
theorem null_unchanged (hsize : 16 ∣ size) (hwide : size + headerSize ≤ expansionPages size*pageSize)
    (ho : h.Ordered tiles free) (hfresh : Fresh h.runs (expansionPages size*pageSize) grants)
    (hcall : h.kmallocRounded size grants = some (0,h')) : h' = h ∧ grants = [] := by
  have hnone := null_fits hsize ho hcall
  rcases attempt_spec hsize ho with ⟨he,-⟩ | ⟨x,h₁,-,⟨hfree,hfit⟩,-⟩
  · cases grants with
    | nil =>
      simp only [kmallocRounded,he,bind_eq_bind,bind_some,if_true,some.injEq,
        Prod.mk.injEq,true_and] at hcall
      exact ⟨hcall.symm,rfl⟩
    | cons base grants =>
      obtain ⟨h₁,tiles₁,free₁,hnext,-,ho₁,hbase,hbytes,-⟩ := grow_attempt ho hfresh he
      rw [hnext] at hcall
      have hlt := null_fits hsize ho₁ hcall base hbase
      omega
  · have hlt := hnone x hfree
    omega

theorem kmallocRounded_drains (hsize : 16 ∣ size) (hlarge : largestHonest < size) (ho : h.Ordered tiles free)
    (hfresh : Fresh h.runs (expansionPages size*pageSize) grants) :
    ∃ h', h.kmallocRounded size grants = some (0,h') ∧
      h'.runs = (grants.map fun base => (base,expansionPages size*pageSize)).reverse ++ h.runs := by
  induction grants generalizing h tiles free with
  | nil =>
    rcases attempt_spec hsize ho with ⟨he,-⟩ | ⟨x,h₁,-,⟨hfree,hfit⟩,-⟩
    · exact ⟨h,by simp [kmallocRounded,he],rfl⟩
    have hmax := ho.size_le hfree
    omega
  | cons base grants ih =>
    rcases attempt_spec hsize ho with ⟨he,-⟩ | ⟨x,h₁,-,⟨hfree,hfit⟩,-⟩
    · obtain ⟨h₁,tiles₁,free₁,hnext,hruns,ho₁,-,-,hfresh₁⟩ := grow_attempt ho hfresh he
      obtain ⟨h₂,hcall,hruns₂⟩ := ih ho₁ hfresh₁
      refine ⟨h₂,hnext.trans hcall,?_⟩
      rw [hruns₂,hruns]
      simp
    · have hmax := ho.size_le hfree
      omega

structure Returns (w : World) (size : Nat) (grants : List Nat) (ptr : Nat) (h : Heap) : Prop where
  /-- Every block in use is behind a live pointer or the one returned. -/
  used : ∃ tiles free, h.Ordered tiles free ∧ ∀ x, h.Used tiles x ↔
    x + headerSize ∈ w.live.map Prod.fst ∨ x + headerSize = ptr
  fresh : ptr ∉ w.live.map Prod.fst
  honest : size ≤ largestHonest → (ptr = 0 → h = w.heap) ∧ (ptr ≠ 0 → size ≤ h.payload ptr)
  drains : largestHonest < size → size ≤ 2^64 - 16 → ptr = 0 ∧
    h.runs = (grants.map fun base => (base,16*pageSize)).reverse ++ w.heap.runs
  overstated : 2^64 - 16 < size → (ptr = 0 → grants = []) ∧ (ptr ≠ 0 → h.payload ptr < 64)

theorem World.Ok.returns {w : World} (ho : w.Ok tiles free) (hmax : size < 2^64)
    (hv : w.Valid (.kmalloc size grants)) :
    ∃ ptr h, w.heap.kmalloc size grants = some (ptr,h) ∧ Returns w size grants ptr h := by
  have h16 : 16 ∣ roundUp size := Nat.dvd_mul_left _ _
  have hfresh : Fresh w.heap.runs (expansionPages (roundUp size)*pageSize) grants := hv
  obtain ⟨ptr,h₁,hcall,tiles₁,free₁,ho₁,hcase⟩ := kmallocRounded_spec h16 ho.ordered hv
  have hnull : size ≤ largestHonest ∨ 2^64 - 16 < size → ptr = 0 → h₁ = w.heap ∧ grants = [] := by
    rintro hs rfl
    refine null_unchanged h16 ?_ ho.ordered hfresh hcall
    rcases hs with hs | hs
    · exact expansion_fits hs
    rw [roundUp_wraps hs hmax]
    decide
  have hdrains : largestHonest < size → size ≤ 2^64 - 16 → ptr = 0 ∧
      h₁.runs = (grants.map fun base => (base,16*pageSize)).reverse ++ w.heap.runs := by
    intro hlow hhigh
    obtain ⟨hlarge,hpages⟩ := expansionPages_wraps hlow hhigh
    obtain ⟨h₂,hcall₂,hruns⟩ := kmallocRounded_drains h16 hlarge ho.ordered hfresh
    rw [hcall] at hcall₂
    obtain ⟨rfl,rfl⟩ : ptr = 0 ∧ h₁ = h₂ := by simpa using hcall₂
    rw [hpages] at hruns
    exact ⟨rfl,hruns⟩
  refine ⟨ptr,h₁,hcall,?_⟩
  rcases hcase with ⟨rfl,ht⟩ | ⟨x,rfl,hnew,ht,hfit,hsmall⟩
  · refine ⟨⟨tiles₁,free₁,ho₁,fun x => ?_⟩,fun hlive => ?_,fun hs => ⟨fun _ => (hnull (.inl hs) rfl).1,
      fun hne => absurd rfl hne⟩,hdrains,fun hs => ⟨fun _ => (hnull (.inr hs) rfl).2,fun hne => absurd rfl hne⟩⟩
    · rw [ht.used,ho.live]
      simp [headerSize]
    · obtain ⟨x,hx,-⟩ := (ho.live 0).mp hlive
      simp [headerSize] at hx
  have hne : x + headerSize ≠ 0 := by simp [headerSize]
  refine ⟨⟨tiles₁,free₁,ho₁,fun y => ?_⟩,fun hlive => ?_,fun hs => ⟨fun hz => absurd hz hne,fun _ => ?_⟩,hdrains,
    fun hs => ⟨fun hz => absurd hz hne,fun _ => ?_⟩⟩
  · rw [ht.used,ho.live]
    simp
  · obtain ⟨y,hy,hu⟩ := (ho.live _).mp hlive
    exact hnew ((show x = y by omega) ▸ hu)
  · rw [payload_eq]
    exact Nat.le_trans (roundUp_ge hs) hfit
  rw [payload_eq]
  rw [roundUp_wraps hs hmax] at hsmall
  simpa [headerSize] using hsmall

end Heap

/-- In every state `kmalloc` returns. Up to `largestHonest` the block has the bytes asked for, and null leaves all
as it was. Above that it takes all the pages there are and returns null, and from 16 below the end on it returns a
block of less than 64 bytes. -/
theorem kmalloc_honesty (initial : Nat)
    (hfresh : initial = 0 ∨ Heap.Fresh [] (1024*pageSize) [initial]) (es : List Heap.Event)
    (hok : (Heap.machine initial).Along Heap.Valid (Heap.machine initial).initial es) :
    ∃ w, (Heap.machine initial).run es = some w ∧ ∀ size grants, size < 2^64 → w.Valid (.kmalloc size grants) →
      ∃ ptr h, w.heap.kmalloc size grants = some (ptr,h) ∧ Heap.Returns w size grants ptr h := by
  obtain ⟨w,hrun,tiles,free,ho⟩ := Heap.run_ok hfresh es hok
  exact ⟨w,hrun,fun size grants hmax hv => ho.returns hmax hv⟩

/-- Two blocks are taken, and the first is freed. -/
def Heap.used : List Heap.Event := [.kmalloc 100 [],.kmalloc 200 [],.kfree 0x400030]

theorem kmalloc_honesty_grown : ∃ w, (Heap.machine 0x400000).run Heap.used = some w ∧
    ∃ ptr h, w.heap.kmalloc 0x800000 [0x1000000] = some (ptr,h) ∧
      Heap.Returns w 0x800000 [0x1000000] ptr h := by
  have hv : Heap.Valid ((Heap.machine 0x400000).run Heap.used) (.kmalloc 0x800000 [0x1000000]) := by
    decide +kernel
  obtain ⟨w,hrun,hreturns⟩ := kmalloc_honesty 0x400000 (.inr (by decide)) Heap.used (by decide +kernel)
  exact ⟨w,hrun,hreturns 0x800000 [0x1000000] (by decide) (hv w hrun)⟩

/-- With 4 MB of free heap, all but one byte of the address space is granted with no byte; and a size
just below takes all the pages there are for nothing. -/
theorem kmalloc_grants_too_little :
    ((Heap.init 0x400000).bind fun h => (h.kmalloc (2^64-1) []).map fun r => (r.1,r.2.payload r.1)) =
      some (0x400030,0) ∧
    ((Heap.init 0x400000).bind fun h => (h.kmalloc (2^64-48) [0x1000000,0x2000000,0x3000000]).map fun r =>
      (r.1,r.2.runs.length)) = some (0,4) := by
  constructor
  · decide +kernel
  · decide +kernel

end Rucux.Memory
