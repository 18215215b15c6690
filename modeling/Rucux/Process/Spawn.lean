import Rucux.Process.ElfLoad

/-!
The memory of a new process: the segments of the executable, and the stack, which is always at the
same place.
-/

namespace Rucux.Process
open Memory List Option

def userStackBase : Nat := 0x8000100000
def userStackSize : Nat := 64*1024

def stackFlags : PageFlags := ⟨true,true,true,true⟩

/-- What `spawn_path` finds: the error of `resolve_path`, the node, memory for the image, what `read`
returns, and the thread that `spawn_user` makes. -/
structure SpawnCall where
  error : Int
  regular : Bool
  content : List UInt8
  buffer : Bool
  bytesRead : Int
  thread : Option Nat

def mapStack (root : BitVec 64) : Nat → Nat → UserMemory → Option (Bool × UserMemory)
  | 0,_,m => some (true,m)
  | left+1,offset,m => do
    let (ok,m) ← m.placePage root (userStackBase + offset) stackFlags (some (replicate pageSize 0))
    if ok then mapStack root left (offset + pageSize) m else some (false,m)

/-- Here the new address space is not active. -/
def UserMemory.discard (m : UserMemory) (root : BitVec 64) : UserMemory :=
  { m with paging := m.paging.discardAddressSpace root (fun _ => true) false }

def spawnPath (call : SpawnCall) (m : UserMemory) : Option (Int × UserMemory) :=
  if call.error < 0 then some (call.error,m)
  else if !call.regular then some (-1,m)
  else if call.content.length = 0 then some (-1,m)
  else if !call.buffer then some (-1,m)
  else if call.bytesRead < 0 || call.bytesRead ≠ call.content.length then some (-1,m)
  else
    match m.paging.createAddressSpace with
    | (none,paging) => some (-1,{ m with paging })
    | (some pml4,paging) => do
      let (entry,m) ← load { m with paging } pml4 call.content
      if entry = 0 then some (-1,m.discard pml4)
      else
        let (ok,m) ← mapStack pml4 (userStackSize/pageSize) 0 m
        if !ok then some (-1,m.discard pml4)
        else
          match call.thread with
          | none => some (-1,m.discard pml4)
          | some tid => some (tid,m)

def stackPage (j : Nat) : Nat := userStackBase + j*pageSize

def stackPages : List Nat := (range (userStackSize/pageSize)).map stackPage

variable {image : List UInt8} {h : Ehdr} {r : BitVec 64} {m : UserMemory} {start : Paging}
  {loaded placed : List Placed} {lost back : List (BitVec 64)} {v i j k n left : Nat}

theorem stackPage_inj : Function.Injective stackPage := by
  intro j k hjk
  simp only [stackPage,pageSize] at hjk
  omega

theorem stackPage_user (hj : j < 16) : UserPage (stackPage j) := by
  rw [userPage_iff]
  simp only [stackPage,userStackBase,pageSize]
  omega

theorem mem_stackPages : v ∈ stackPages ↔ ∃ j, j < 16 ∧ stackPage j = v := by
  simp [stackPages,userStackSize,pageSize]

/-- After `k` pages of the stack: those of the segments that were in their place are lost. -/
structure Stacked (loaded placed : List Placed) (lost : List (BitVec 64)) (k : Nat) : Prop where
  kept : ∀ x ∈ loaded, (∀ j, j < k → x.virt ≠ stackPage j) → x ∈ placed
  source : ∀ x ∈ placed, x ∈ loaded ∧ (∀ j, j < k → x.virt ≠ stackPage j) ∨ ∃ j, j < k ∧ x.virt = stackPage j
  lost : ∀ a, a ∈ lost ↔ ∃ x ∈ loaded, (∃ j, j < k ∧ x.virt = stackPage j) ∧ x.page = a

theorem Stacked.init (loaded : List Placed) : Stacked loaded loaded [] 0 :=
  ⟨fun _ hx _ => hx,fun _ hx => .inl ⟨hx,fun j hj => absurd hj (Nat.not_lt_zero j)⟩,fun _ =>
    ⟨fun ha => absurd ha not_mem_nil,fun ⟨_,_,⟨j,hj,_⟩,_⟩ => absurd hj (Nat.not_lt_zero j)⟩⟩

theorem Stacked.step (hs : Stacked loaded placed lost k) (page : BitVec 64) (flags : PageFlags) (frame : List UInt8) :
    Stacked loaded (⟨stackPage k,page,flags,frame⟩ :: placed.filter (·.virt ≠ stackPage k))
      ((placed.filter (·.virt = stackPage k)).map Placed.page ++ lost) (k+1) := by
  refine ⟨fun x hx hno => ?_,fun x hx => ?_,fun a => ?_⟩
  · refine mem_cons_of_mem _ (mem_filter.mpr ⟨hs.kept x hx fun j hj => hno j (by omega),?_⟩)
    exact decide_eq_true (hno k (Nat.lt_succ_self k))
  · rcases mem_cons.mp hx with rfl | hx
    · exact .inr ⟨k,Nat.lt_succ_self k,rfl⟩
    obtain ⟨hx,hne⟩ := mem_filter.mp hx
    rcases hs.source x hx with ⟨hx,hno⟩ | ⟨j,hj,hxj⟩
    · refine .inl ⟨hx,fun j hj => ?_⟩
      rcases Nat.eq_or_lt_of_le (Nat.lt_succ_iff.mp hj) with rfl | hlt
      · exact of_decide_eq_true hne
      · exact hno j hlt
    · exact .inr ⟨j,by omega,hxj⟩
  rw [mem_append,hs.lost]
  constructor
  · rintro (ha | ⟨x,hx,⟨j,hj,hxj⟩,rfl⟩)
    · obtain ⟨x,hx,rfl⟩ := mem_map.mp ha
      obtain ⟨hx,hxv⟩ := mem_filter.mp hx
      have hxk : x.virt = stackPage k := of_decide_eq_true hxv
      rcases hs.source x hx with ⟨hx,-⟩ | ⟨j,hj,hxj⟩
      · exact ⟨x,hx,⟨k,Nat.lt_succ_self k,hxk⟩,rfl⟩
      have hjk := stackPage_inj (hxj.symm.trans hxk)
      omega
    · exact ⟨x,hx,⟨j,by omega,hxj⟩,rfl⟩
  rintro ⟨x,hx,⟨j,hj,hxj⟩,rfl⟩
  rcases Nat.eq_or_lt_of_le (Nat.lt_succ_iff.mp hj) with rfl | hlt
  · refine .inl (mem_map_of_mem (mem_filter.mpr ⟨hs.kept x hx fun i hi hxi => ?_,decide_eq_true hxj⟩))
    have hij := stackPage_inj (hxi.symm.trans hxj)
    omega
  · exact .inr ⟨x,hx,⟨j,hlt,hxj⟩,rfl⟩

theorem mapStack_spec (left : Nat) (hleft : k + left = 16) (hm : Populated m r start placed lost [])
    (hs : Stacked loaded placed lost k) :
    ∃ ok m', mapStack r left (k*pageSize) m = some (ok,m') ∧
      (ok = true → ∃ placed' lost', Populated m' r start placed' lost' [] ∧ Stacked loaded placed' lost' 16) ∧
      (ok = false → ∃ placed' lost' back' k', k' ≤ 16 ∧ Populated m' r start placed' lost' back' ∧
        Stacked loaded placed' lost' k') ∧
      ∀ n, m.paging.Ready (n + 4*left) → ok = true ∧ m'.paging.Ready n := by
  induction left generalizing k m placed lost with
  | zero =>
    obtain rfl : k = 16 := by omega
    exact ⟨true,m,rfl,fun _ => ⟨_,_,hm,hs⟩,nofun,fun n hn => ⟨rfl,hn⟩⟩
  | succ left ih =>
    obtain ⟨ok,m₁,hplace,htrue,hfalse,hready⟩ := hm.placePage (stackPage_user (j := k) (by omega))
      (show stackFlags.present = true from rfl) (replicate pageSize 0)
    rw [mapStack,show userStackBase + k*pageSize = stackPage k from rfl,hplace]
    cases ok with
    | false =>
      obtain ⟨back',hm₁⟩ := hfalse rfl
      exact ⟨false,m₁,rfl,nofun,fun _ => ⟨_,_,_,k,by omega,hm₁,hs⟩,
        fun n hn => absurd (hready (n + 4*left) hn).1 (by simp)⟩
    | true =>
      obtain ⟨page,hm₁⟩ := htrue rfl
      obtain ⟨ok,m₂,hload,htrue₂,hfalse₂,hready₂⟩ := ih (k := k+1) (by omega) hm₁ (hs.step page _ _)
      rw [Nat.succ_mul] at hload
      exact ⟨ok,m₂,hload,htrue₂,hfalse₂,fun n hn => hready₂ n (hready (n + 4*left) hn).2⟩

/-- The pages that are not where the loader or the stack put them -/
structure SpawnLayout (image : List UInt8) (h : Ehdr) (root : BitVec 64) (loaded out : UserMemory)
    (new : List (BitVec 64)) : Prop where
  distinct : (segmentPages image h ++ stackPages).Nodup
  segments : ∀ v ∈ segmentPages image h, out.paging.leafOf root v = loaded.paging.leafOf root v ∧
    out.paging.getPhys root v = loaded.paging.getPhys root v ∧
    out.frames (out.paging.getPhys root v) = loaded.frames (loaded.paging.getPhys root v)
  frames : ∀ a ∈ new, (∀ q, PathOk q → out.paging.walk root q ≠ some a) →
    ∃ v, UserPage v ∧ out.paging.getPhys root v = a ∧ ∀ v', UserPage v' → out.paging.getPhys root v' = a → v' = v

theorem LoadedBefore.segmentPage (hb : LoadedBefore image h h.phnum loaded) {x : Placed} (hx : x ∈ loaded) :
    x.virt ∈ segmentPages image h := by
  obtain ⟨i,hi,hl,k,hk,hfrom⟩ := hb.source x hx
  exact mem_segmentPages.mpr ⟨i,hi,hl,k,hk,hfrom.virt.symm⟩

theorem LoadedBefore.find (hb : LoadedBefore image h h.phnum loaded) (hv : v ∈ segmentPages image h) :
    ∃ x ∈ loaded, x.virt = v := by
  obtain ⟨i,hi,hl,k,hk,rfl⟩ := mem_segmentPages.mp hv
  exact mem_map.mp (hb.all i hi hl k hk)

theorem Stacked.lost_nil (hs : Stacked loaded placed lost k) (hk : k ≤ 16) (hb : LoadedBefore image h h.phnum loaded)
    (hfree : ∀ v ∈ segmentPages image h, v ∉ stackPages) : lost = [] := by
  refine eq_nil_iff_forall_not_mem.mpr fun a ha => ?_
  obtain ⟨x,hx,⟨j,hj,hxj⟩,-⟩ := (hs.lost a).mp ha
  exact hfree x.virt (hb.segmentPage hx) (mem_stackPages.mpr ⟨j,by omega,hxj.symm⟩)

theorem Stacked.layout {m' : UserMemory} (hs : Stacked loaded placed lost 16) (ha : Accepted image h)
    (hb : LoadedBefore image h h.phnum loaded) (hm : Populated m r start loaded [] [])
    (hm' : Populated m' r start placed lost []) {new : List (BitVec 64)} (hnew : m'.paging.taken = new ++ start.taken) :
    SpawnLayout image h r m m' new ↔ ∀ v ∈ segmentPages image h, v ∉ stackPages := by
  constructor
  · intro hl v hv hv'
    exact (nodup_append.mp hl.distinct).2.2 v hv v hv' rfl
  intro hfree
  obtain rfl := hs.lost_nil (Nat.le_refl 16) hb hfree
  refine ⟨nodup_append.mpr ⟨ha.segmentPages_nodup,nodup_range.map stackPage_inj,
    fun v hv v' hv' heq => hfree v hv (heq ▸ hv')⟩,fun v hv => ?_,fun a hin hno => ?_⟩
  · obtain ⟨x,hx,rfl⟩ := hb.find hv
    have hx' : x ∈ placed := hs.kept x hx fun j hj hxj => hfree _ hv (mem_stackPages.mpr ⟨j,hj,hxj.symm⟩)
    rw [hm.leaf x hx,hm'.leaf x hx',hm.getPhys hx,hm'.getPhys hx',hm.content x hx,hm'.content x hx']
    exact ⟨rfl,rfl,rfl⟩
  obtain ⟨new',hnew',-,hperm⟩ := hm'.taken
  obtain rfl : new = new' := append_cancel_right (hnew.symm.trans hnew')
  have hmem := hperm.mem_iff.mp hin
  rw [append_nil,append_nil,mem_append,← Paging.inUse_root] at hmem
  rcases hmem with ⟨r',q,rfl,hq,hw⟩ | hmem
  · exact absurd hw (hno q hq)
  obtain ⟨x,hx,rfl⟩ := mem_map.mp hmem
  exact ⟨x.virt,hm'.user x hx,hm'.getPhys hx,fun v' hv' hphys => hm'.getPhys_eq hx hv' hphys⟩

def FrameLost (root : BitVec 64) (out : UserMemory) (new : List (BitVec 64)) : Prop :=
  ∃ a ∈ new, (∀ q, PathOk q → out.paging.walk root q ≠ some a) ∧ ∀ v, UserPage v → out.paging.getPhys root v ≠ a

theorem Stacked.frameLost {m' : UserMemory} (hs : Stacked loaded placed lost 16)
    (hb : LoadedBefore image h h.phnum loaded) (hm : Populated m r start loaded [] [])
    (hm' : Populated m' r start placed lost []) {new : List (BitVec 64)} (hnew : m'.paging.taken = new ++ start.taken)
    (hv : v ∈ segmentPages image h) (hv' : v ∈ stackPages) : FrameLost r m' new := by
  obtain ⟨x,hx,rfl⟩ := hb.find hv
  obtain ⟨j,hj,hxj⟩ := mem_stackPages.mp hv'
  have hlost : x.page ∈ lost := (hs.lost x.page).mpr ⟨x,hx,⟨j,hj,hxj.symm⟩,rfl⟩
  obtain ⟨new',hnew',-,hperm⟩ := hm'.taken
  obtain rfl : new = new' := append_cancel_right (hnew.symm.trans hnew')
  obtain ⟨htable,hphys⟩ := hm'.unmapped_of_lost hlost (hm.frame x hx).2
  refine ⟨x.page,hperm.mem_iff.mpr (by simp [hlost]),fun q hq hw => ?_,hphys⟩
  exact htable (Paging.inUse_root.mp ⟨r,q,rfl,hq,hw⟩)

/-- The image gets loaded, and a segment has a page where the stack is. -/
def Overlaps (call : SpawnCall) (m : UserMemory) : Prop :=
  ∃ r s h loaded, m.paging.createAddressSpace = (some r,s) ∧ validate call.content machineAmd64 = some true ∧
    readEhdr call.content = some h ∧ load { m with paging := s } r call.content = some (h.entry,loaded) ∧
    ∃ v ∈ segmentPages call.content h, v ∈ stackPages

/-- On success, the layout is right exactly if no segment has a page where the stack is; on failure,
every page has been given back, unless a segment that was loaded has such a page. -/
def SpawnOutcome (call : SpawnCall) (m out : UserMemory) (result : Int) : Prop :=
  ∃ new gone, out.paging.taken = new ++ m.paging.taken ∧ out.paging.freed = gone ++ m.paging.freed ∧ new.Nodup ∧
    (0 ≤ result → gone = [] ∧ validate call.content machineAmd64 = some true ∧ ∃ r s h loaded,
      m.paging.createAddressSpace = (some r,s) ∧ readEhdr call.content = some h ∧
      load { m with paging := s } r call.content = some (h.entry,loaded) ∧ Loaded call.content h r loaded ∧
      (SpawnLayout call.content h r loaded out new ↔ ∀ v ∈ segmentPages call.content h, v ∉ stackPages) ∧
      ∀ v ∈ segmentPages call.content h, v ∈ stackPages → FrameLost r out new) ∧
    (result < 0 → ¬Overlaps call m → gone ~ new)

variable {call : SpawnCall}

theorem spawnOutcome_nothing {out : UserMemory} {result : Int} (ht : out.paging.taken = m.paging.taken)
    (hf : out.paging.freed = m.paging.freed) (hneg : result < 0) : SpawnOutcome call m out result :=
  ⟨[],[],ht,hf,nodup_nil,fun hpos => absurd hpos (by omega),fun _ _ => Perm.refl _⟩

theorem Populated.spawnOutcome_discard {m' : UserMemory} (hm : Populated m' r m.paging placed lost back)
    (hlost : ¬Overlaps call m → lost = []) : SpawnOutcome call m (m'.discard r) (-1) := by
  obtain ⟨new,gone,ht,hf,hnodup,hperm⟩ := hm.discard
  refine ⟨new,gone,ht,hf,hnodup,fun hpos => absurd hpos (by decide),fun _ hfree => ?_⟩
  rw [hlost hfree,append_nil] at hperm
  exact hperm.symm

theorem spawn_memory_layout (call : SpawnCall) (m : UserMemory) (hf : m.paging.Fresh fun _ => False) :
    ∃ result out, spawnPath call m = some (result,out) ∧ SpawnOutcome call m out result := by
  unfold spawnPath
  split
  · rename_i herror
    exact ⟨_,m,rfl,spawnOutcome_nothing rfl rfl herror⟩
  split
  · exact ⟨_,m,rfl,spawnOutcome_nothing rfl rfl (by decide)⟩
  split
  · exact ⟨_,m,rfl,spawnOutcome_nothing rfl rfl (by decide)⟩
  split
  · exact ⟨_,m,rfl,spawnOutcome_nothing rfl rfl (by decide)⟩
  split
  · exact ⟨_,m,rfl,spawnOutcome_nothing rfl rfl (by decide)⟩
  cases hc : m.paging.createAddressSpace with
  | mk o s =>
  cases o with
  | none =>
    rcases m.paging.allocPage_cases with ⟨page,rest,-,halloc⟩ | ⟨rest,-,-,-,halloc⟩
    · rw [Paging.createAddressSpace,halloc] at hc
      cases hc
    rw [Paging.createAddressSpace,halloc] at hc
    cases hc
    exact ⟨_,_,rfl,spawnOutcome_nothing rfl rfl (by decide)⟩
  | some r =>
  obtain ⟨entry,m₁,hload,hinvalid,hfailed,hspec⟩ := load_spec (populated_created hf hc m.frames) call.content
  simp only [bind_eq_bind,hload,bind_some]
  by_cases hentry : entry = 0
  · obtain ⟨placed,back,hm₁⟩ := hfailed hentry
    rw [if_pos hentry]
    exact ⟨_,_,rfl,hm₁.spawnOutcome_discard fun _ => rfl⟩
  rw [if_neg hentry]
  -- the image was accepted
  have hvalid : validate call.content machineAmd64 = some true := by
    by_contra hno
    exact hentry (hinvalid hno).1
  obtain ⟨valid,hvalid',haccepted⟩ := validate_spec call.content machineAmd64
  rw [hvalid] at hvalid'
  obtain ⟨h,ha⟩ := haccepted (some.inj hvalid').symm
  obtain ⟨-,rfl,loaded,hm₁,hb⟩ := (hspec h ha.header).1 hentry
  have hfree : ¬Overlaps call m → ∀ v ∈ segmentPages call.content h, v ∉ stackPages :=
    fun hno v hv hv' => hno ⟨r,s,h,m₁,hc,hvalid,ha.header,hload,v,hv,hv'⟩
  obtain ⟨ok,m₂,hstack,htrue,hfalse,-⟩ := mapStack_spec 16 rfl hm₁ (.init loaded)
  rw [Nat.zero_mul] at hstack
  rw [show userStackSize/pageSize = 16 from rfl,hstack]
  cases ok with
  | false =>
    obtain ⟨placed,lost,back,k,hk,hm₂,hs⟩ := hfalse rfl
    exact ⟨_,_,rfl,hm₂.spawnOutcome_discard fun hno => hs.lost_nil hk hb (hfree hno)⟩
  | true =>
    obtain ⟨placed,lost,hm₂,hs⟩ := htrue rfl
    cases call.thread with
    | none => exact ⟨_,_,rfl,hm₂.spawnOutcome_discard fun hno => hs.lost_nil (Nat.le_refl 16) hb (hfree hno)⟩
    | some tid =>
      obtain ⟨new,ht,hnodup,-⟩ := hm₂.taken
      refine ⟨tid,m₂,rfl,new,[],ht,hm₂.freed,(nodup_append.mp hnodup).1,fun _ => ⟨rfl,hvalid,r,s,h,m₁,hc,ha.header,
        hload,hm₁.loaded ha hb,hs.layout ha hb hm₁ hm₂ ht,
        fun v hv hv' => hs.frameLost hb hm₁ hm₂ ht hv hv'⟩,fun hneg => absurd hneg (by omega)⟩

theorem spawnPath_succeeds (call : SpawnCall) {tid : Nat} (hf : m.paging.Fresh fun _ => False)
    (herror : ¬ call.error < 0)
    (hregular : call.regular = true) (hbuffer : call.buffer = true) (hread : call.bytesRead = call.content.length)
    (hthread : call.thread = some tid) (hvalid : validate call.content machineAmd64 = some true)
    (hh : readEhdr call.content = some h)
    (hready : m.paging.Ready (0 + 4*16 + 4*(segmentPages call.content h).length + 1)) :
    ∃ out r s new, spawnPath call m = some ((tid : Int),out) ∧ m.paging.createAddressSpace = (some r,s) ∧
      out.paging.taken = new ++ m.paging.taken ∧ out.paging.freed = m.paging.freed ∧
      ∀ v ∈ segmentPages call.content h, v ∈ stackPages → FrameLost r out new := by
  have hlen : call.content.length ≠ 0 := by
    intro hzero
    rw [length_eq_zero_iff.mp hzero] at hvalid
    revert hvalid
    decide
  unfold spawnPath
  rw [if_neg herror,if_neg (by simp [hregular]),if_neg hlen,if_neg (by simp [hbuffer]),if_neg (by simp [hread])]
  rcases m.paging.allocPage_cases with ⟨r,rest,hs,halloc⟩ | ⟨rest,-,-,hno,-⟩
  · have hc : m.paging.createAddressSpace = (some r,((m.paging.drawn r rest).clearTable r).setEntry r 0
        (m.paging.drawn r rest).kernelEntry) := by
      rw [Paging.createAddressSpace,halloc]
    have hready₁ : Paging.Ready (((m.paging.drawn r rest).clearTable r).setEntry r 0
        (m.paging.drawn r rest).kernelEntry) (0 + 4*16 + 4*(segmentPages call.content h).length) := by
      intro j hj
      obtain ⟨a,ha⟩ := hready (j+1) (by omega)
      rw [hs] at ha
      exact ⟨a,ha⟩
    rw [hc]
    obtain ⟨entry,m₁,hload,-,-,hspec⟩ := load_spec (populated_created hf hc m.frames) call.content
    obtain ⟨hloaded,hready₂⟩ := hspec h hh
    obtain ⟨hentry,hready₂⟩ := hready₂ hvalid _ hready₁
    obtain ⟨ha,-,loaded,hm₁,hb⟩ := hloaded hentry
    obtain ⟨ok,m₂,hstack,htrue,-,hready₃⟩ := mapStack_spec 16 rfl hm₁ (.init loaded)
    obtain ⟨rfl,-⟩ := hready₃ 0 hready₂
    obtain ⟨placed,lost,hm₂,hstacked⟩ := htrue rfl
    obtain ⟨new,ht,-⟩ := hm₂.taken
    rw [Nat.zero_mul] at hstack
    simp only [bind_eq_bind,hload,bind_some]
    rw [if_neg hentry,show userStackSize/pageSize = 16 from rfl,hstack,hthread]
    exact ⟨m₂,r,_,new,rfl,rfl,ht,hm₂.freed,fun v hv hv' => hstacked.frameLost hb hm₁ hm₂ ht hv hv'⟩
  · exact absurd (fun j hj => hready j (by omega)) hno

def callOf (image : List UInt8) : SpawnCall := ⟨0,true,image,true,image.length,some 7⟩

theorem callOf_succeeds (hvalid : validate image machineAmd64 = some true) (hh : readEhdr image = some h)
    (hone : (segmentPages image h).length = 1) : ∃ out r s new, spawnPath (callOf image) emptyMemory = some (7,out) ∧
      emptyMemory.paging.createAddressSpace = (some r,s) ∧ out.paging.taken = new ∧ out.paging.freed = [] ∧
      ∀ v ∈ segmentPages image h, v ∈ stackPages → FrameLost r out new := by
  obtain ⟨out,r,s,new,hspawn,hc,ht,hfreed,hlost⟩ := spawnPath_succeeds (m := emptyMemory) (h := h) (callOf image)
    emptyMemory_fresh (by simp [callOf]) rfl rfl rfl rfl hvalid hh fun j hj => emptyMemory_ready j (by
      rw [show (callOf image).content = image from rfl,hone] at hj
      omega)
  exact ⟨out,r,s,new,hspawn,hc,ht.trans (append_nil new),hfreed,hlost⟩

/-- A segment at the lowest page of the stack: the frame that the loader filled is lost. -/
theorem spawn_loses_frame :
    let image := imageAt [0,0,0x10,0,0x80,0,0,0]
    validate image machineAmd64 = some true ∧ ∃ out r s new, spawnPath (callOf image) emptyMemory = some (7,out) ∧
      emptyMemory.paging.createAddressSpace = (some r,s) ∧ out.paging.taken = new ∧ out.paging.freed = [] ∧
      FrameLost r out new := by
  have hvalid : validate (imageAt [0,0,0x10,0,0x80,0,0,0]) machineAmd64 = some true := by decide +kernel
  have hpages : segmentPages (imageAt [0,0,0x10,0,0x80,0,0,0]) (ehdrAt 0x8000100000) = [0x8000100000] := by
    decide +kernel
  obtain ⟨out,r,s,new,hspawn,hc,ht,hfreed,hlost⟩ := callOf_succeeds (h := ehdrAt 0x8000100000) hvalid
    (by decide +kernel) (by rw [hpages]; rfl)
  refine ⟨hvalid,out,r,s,new,hspawn,hc,ht,hfreed,hlost 0x8000100000 (by rw [hpages]; exact mem_singleton.mpr rfl) ?_⟩
  exact mem_stackPages.mpr ⟨0,by decide,rfl⟩

theorem spawn_memory_layout_lowest :
    let image := imageAt [0,0,0,0,0x80,0,0,0]
    ∃ out r loaded new, spawnPath (callOf image) emptyMemory = some (7,out) ∧
      SpawnLayout image (ehdrAt 0x8000000000) r loaded out new := by
  have hpages : segmentPages (imageAt [0,0,0,0,0x80,0,0,0]) (ehdrAt 0x8000000000) = [0x8000000000] := by
    decide +kernel
  have hh : readEhdr (imageAt [0,0,0,0,0x80,0,0,0]) = some (ehdrAt 0x8000000000) := by decide +kernel
  obtain ⟨out,-,-,-,hspawn,-⟩ := callOf_succeeds (h := ehdrAt 0x8000000000)
    (show validate (imageAt [0,0,0,0,0x80,0,0,0]) machineAmd64 = some true by decide +kernel) hh (by rw [hpages]; rfl)
  obtain ⟨result,out',hspawn',new,gone,-,-,-,hsuccess,-⟩ :=
    spawn_memory_layout (callOf (imageAt [0,0,0,0,0x80,0,0,0])) emptyMemory emptyMemory_fresh
  rw [hspawn] at hspawn'
  obtain ⟨rfl,rfl⟩ : (7 : Int) = result ∧ out = out' := by simpa using hspawn'
  obtain ⟨-,-,r,s,h,loaded,-,hh',-,-,hiff,-⟩ := hsuccess (by decide)
  obtain rfl := some.inj (hh.symm.trans hh')
  refine ⟨out,r,loaded,new,hspawn,hiff.mpr fun v hv hv' => ?_⟩
  obtain rfl := mem_singleton.mp hv
  revert hv'
  decide

end Rucux.Process
