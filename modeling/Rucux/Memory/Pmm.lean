import Rucux.Memory.BuddyPartition

/-!
The physical page manager: a stack of pages for each processor in front of the buddy
allocator. A processor keeps its interrupts off during a call, so nobody else sees its
stack; between two sections of the allocator's lock the others may run. An event is what a
processor does up to its next section.
-/

namespace Rucux.Memory
open Lib Function List Option

namespace Pmm

def cacheSize : Nat := 64

def batch : Nat := cacheSize/2

/-- Where a processor is: in the loop of `cache_refill` after `done` pages, or in that of `cache_drain`
after `done` of `total`, with a page in hand. -/
inductive Phase where
  | idle
  | refilling (done : Nat)
  | draining (done total ptr : Nat)
  deriving DecidableEq

end Pmm

/-- `live` are the blocks that were returned and whose `free_page` has not finished. -/
structure Pmm (n : Nat) where
  buddy : Buddy
  caches : Fin n → List Nat
  phases : Fin n → Pmm.Phase
  live : List (Nat × Nat)

namespace Pmm
variable {n : Nat}

/-- What a call returns, if it does: an address, 0 for null, with the order of its block. -/
structure Done (n : Nat) where
  pmm : Pmm n
  result : Option (Nat × Nat)

def setCache (s : Pmm n) (cpu : Fin n) (pages : List Nat) : Pmm n :=
  { s with caches := update s.caches cpu pages }

def setPhase (s : Pmm n) (cpu : Fin n) (phase : Phase) : Pmm n :=
  { s with phases := update s.phases cpu phase }

def takePage (s : Pmm n) (cpu : Fin n) : Done n :=
  match s.caches cpu with
  | [] => ⟨s.setPhase cpu .idle,some (0,0)⟩
  | page :: rest =>
    ⟨{ (s.setCache cpu rest).setPhase cpu .idle with live := (page,0) :: s.live },some (page,0)⟩

def allocPage (s : Pmm n) (cpu : Fin n) : Done n :=
  if s.caches cpu = [] then ⟨s.setPhase cpu (.refilling 0),none⟩ else s.takePage cpu

def refill (s : Pmm n) (cpu : Fin n) (done : Nat) : Done n :=
  if done < batch then
    let r := s.buddy.allocPage
    if r.1 = 0 then { s with buddy := r.2 }.takePage cpu
    else ⟨({ s with buddy := r.2 }.setCache cpu (r.1 :: s.caches cpu)).setPhase cpu
      (.refilling (done+1)),none⟩
  else s.takePage cpu

def allocPages (s : Pmm n) (cpu : Fin n) (count : Nat) : Done n :=
  if count = 0 then ⟨s,some (0,0)⟩
  else if count = 1 then s.allocPage cpu
  else
    let r := s.buddy.allocPages count
    if r.1 = 0 then ⟨{ s with buddy := r.2 },some (0,0)⟩
    else ⟨{ s with buddy := r.2, live := (r.1,Buddy.pagesToOrder count) :: s.live },
      some (r.1,Buddy.pagesToOrder count)⟩

def putPage (s : Pmm n) (cpu : Fin n) (ptr : Nat) : Done n :=
  ⟨{ (s.setCache cpu (ptr :: s.caches cpu)).setPhase cpu .idle with
    live := s.live.erase (ptr,0) },none⟩

def freePage (s : Pmm n) (cpu : Fin n) (ptr : Nat) : Done n :=
  if ptr = 0 then ⟨s,none⟩
  else if (s.caches cpu).length ≥ cacheSize then
    ⟨s.setPhase cpu (.draining 0 ((s.caches cpu).length/2) ptr),none⟩
  else s.putPage cpu ptr

def drain (s : Pmm n) (cpu : Fin n) (done total ptr : Nat) : Done n :=
  if done < total then
    match s.caches cpu with
    | [] => ⟨s,none⟩
    | page :: rest =>
      ⟨({ s with buddy := s.buddy.freePage page }.setCache cpu rest).setPhase cpu
        (.draining (done+1) total ptr),none⟩
  else s.putPage cpu ptr

inductive Call where
  | allocPage
  | allocPages (count : Nat)
  | freePage (ptr : Nat)

/-- A processor starts a call when it is in none, and otherwise goes on. -/
inductive Event (n : Nat) where
  | start (cpu : Fin n) (call : Call)
  | resume (cpu : Fin n)

def dispatch (s : Pmm n) : Event n → Done n
  | .start cpu call =>
    match s.phases cpu with
    | .idle =>
      match call with
      | .allocPage => s.allocPage cpu
      | .allocPages count => s.allocPages cpu count
      | .freePage ptr => s.freePage cpu ptr
    | _ => ⟨s,none⟩
  | .resume cpu =>
    match s.phases cpu with
    | .idle => ⟨s,none⟩
    | .refilling done => s.refill cpu done
    | .draining done total ptr => s.drain cpu done total ptr

def step (s : Pmm n) (e : Event n) : Pmm n := (s.dispatch e).pmm

def machine (n base totalPages : Nat) : Machine (Pmm n) (Event n) :=
  ⟨⟨.init base totalPages,fun _ => [],fun _ => .idle,[]⟩,step⟩

def Phase.freeing : Phase → Option Nat
  | .draining _ _ ptr => some ptr
  | _ => none

/-- A page is freed by who holds it, and by one call only. -/
def Valid (s : Pmm n) : Event n → Prop
  | .start _ (.freePage ptr) => ptr = 0 ∨
      (ptr,0) ∈ s.live ∧ ∀ cpu, (s.phases cpu).freeing ≠ some ptr
  | _ => True

instance (s : Pmm n) : (e : Event n) → Decidable (s.Valid e)
  | .start _ (.freePage ptr) => inferInstanceAs (Decidable (ptr = 0 ∨
      (ptr,0) ∈ s.live ∧ ∀ cpu, (s.phases cpu).freeing ≠ some ptr))
  | .start _ .allocPage | .start _ (.allocPages _) | .resume _ => .isTrue trivial

def Phase.Fits (length : Nat) : Phase → Prop
  | .idle => length ≤ cacheSize
  | .refilling done => length = done ∧ done ≤ batch
  | .draining done total _ => total = batch ∧ done ≤ total ∧ length + done = cacheSize

def cached (s : Pmm n) : List (Nat × Nat) := (gather s.caches).map (·,0)

structure Ok (base total : Nat) (s : Pmm n) : Prop where
  pages : Buddy.Partition base total s.buddy (s.cached ++ s.live)
  fits : ∀ cpu, (s.phases cpu).Fits (s.caches cpu).length
  freeing : ∀ cpu ptr, (s.phases cpu).freeing = some ptr → (ptr,0) ∈ s.live
  alone : ∀ cpu cpu' ptr, (s.phases cpu).freeing = some ptr →
    (s.phases cpu').freeing = some ptr → cpu = cpu'

end Pmm

theorem Buddy.Partition.perm {base total : Nat} {b : Buddy} {live live' : List (Nat × Nat)}
    (h : Buddy.Partition base total b live) (hp : live ~ live') :
    Buddy.Partition base total b live' :=
  ⟨h.arena,h.aligned,fun x hx => h.handed x (hp.mem_iff.mpr hx),
    ((hp.flatMap_right _).append_left _).symm.trans h.pages,h.counted⟩

namespace Pmm
variable {n base total : Nat} {s : Pmm n}

theorem Ok.write (h : s.Ok base total) (cpu : Fin n) {b : Buddy} {pages : List Nat} (phase : Phase)
    {live : List (Nat × Nat)}
    (hpages : Buddy.Partition base total b ((gather (update s.caches cpu pages)).map (·,0) ++ live))
    (hfits : phase.Fits pages.length) (hmine : ∀ ptr, phase.freeing = some ptr →
      (ptr,0) ∈ live ∧ ∀ cpu' ≠ cpu, (s.phases cpu').freeing ≠ some ptr)
    (hother : ∀ cpu' ptr, cpu' ≠ cpu → (s.phases cpu').freeing = some ptr → (ptr,0) ∈ live) :
    Ok base total ⟨b,update s.caches cpu pages,update s.phases cpu phase,live⟩ := by
  refine ⟨hpages,fun c => ?_,fun c ptr hc => ?_,fun c d ptr hc hd => ?_⟩
  · by_cases hcpu : c = cpu
    · subst hcpu
      simpa using hfits
    · simpa [hcpu] using h.fits c
  · by_cases hcpu : c = cpu
    · subst hcpu
      exact (hmine ptr (by simpa using hc)).1
    · exact hother c ptr hcpu (by simpa [hcpu] using hc)
  by_cases hcc : c = cpu <;> by_cases hdc : d = cpu
  · rw [hcc,hdc]
  · subst hcc
    simp only [update_self,update_of_ne hdc] at hc hd
    exact absurd hd ((hmine ptr hc).2 d hdc)
  · subst hdc
    simp only [update_self,update_of_ne hcc] at hc hd
    exact absurd hc ((hmine ptr hd).2 c hcc)
  · simp only [update_of_ne hcc,update_of_ne hdc] at hc hd
    exact h.alone c d ptr hc hd

section
variable (h : s.Ok base total) {cpu : Fin n}
include h

theorem Ok.nonzero (hb : pageSize ∣ base) (hpos : 0 < base) {page : Nat} (hp : page ∈ s.caches cpu) :
    page ≠ 0 := by
  have hm : (page,0) ∈ s.cached ++ s.live := by
    simpa [cached] using .inl (mem_gather.mpr ⟨cpu,hp⟩)
  have hin := h.pages.live_inside hb hm
  omega

theorem Ok.setPhase {phase : Phase} (hfits : phase.Fits (s.caches cpu).length)
    (hmine : ∀ ptr, phase.freeing = some ptr → (ptr,0) ∈ s.live ∧ ∀ cpu' ≠ cpu, (s.phases cpu').freeing ≠ some ptr) :
    (s.setPhase cpu phase).Ok base total := by
  have hsame : update s.caches cpu (s.caches cpu) = s.caches := by simp
  have hpages : Buddy.Partition base total s.buddy
      ((gather (update s.caches cpu (s.caches cpu))).map (·,0) ++ s.live) := by
    rw [hsame]
    exact h.pages
  have hw := h.write cpu phase hpages hfits hmine fun c ptr _ hc => h.freeing c ptr hc
  rwa [hsame] at hw

theorem takePage_ok (hle : (s.caches cpu).length ≤ cacheSize) : (s.takePage cpu).pmm.Ok base total := by
  unfold takePage
  split
  · exact h.setPhase hle (by simp [Phase.freeing])
  rename_i page rest hl
  refine h.write cpu .idle (h.pages.perm ?_) ?_ (by simp [Phase.freeing]) ?_
  · have hpop := ((gather_pop hl).map (·,0)).append_right s.live
    refine hpop.trans ?_
    exact perm_middle.symm
  · simp only [hl,length_cons] at hle
    simp only [Phase.Fits]
    omega
  · intro c ptr _ hc
    exact mem_cons_of_mem _ (h.freeing c ptr hc)

theorem putPage_ok {ptr : Nat} (hm : (ptr,0) ∈ s.live) (hroom : (s.caches cpu).length < cacheSize)
    (halone : ∀ cpu' ≠ cpu, (s.phases cpu').freeing ≠ some ptr) :
    (s.putPage cpu ptr).pmm.Ok base total := by
  refine h.write cpu .idle (h.pages.perm ?_) ?_ (by simp [Phase.freeing]) ?_
  · have hpush := ((gather_push s.caches cpu ptr).map (·,0)).append_right (s.live.erase (ptr,0))
    refine .trans ?_ hpush.symm
    exact ((perm_cons_erase hm).append_left _).trans perm_middle
  · simp only [length_cons,Phase.Fits]
    omega
  intro c ptr' hc hfree
  have hne : (ptr',0) ≠ (ptr,0) := by
    rintro heq
    simp only [Prod.mk.injEq,and_true] at heq
    exact halone c hc (heq ▸ hfree)
  exact (mem_erase_of_ne hne).mpr (h.freeing c ptr' hfree)

theorem allocPage_ok (hidle : s.phases cpu = .idle) : (s.allocPage cpu).pmm.Ok base total := by
  have hfits := h.fits cpu
  rw [hidle] at hfits
  unfold allocPage
  split
  · rename_i hnil
    exact h.setPhase (by simp [Phase.Fits,hnil]) (by simp [Phase.freeing])
  · exact takePage_ok h hfits

theorem refill_ok (hb : pageSize ∣ base) (hpos : 0 < base) {done : Nat}
    (hphase : s.phases cpu = .refilling done) :
    (s.refill cpu done).pmm.Ok base total := by
  have hfits := h.fits cpu
  rw [hphase] at hfits
  obtain ⟨hlen,hdone⟩ := hfits
  have hroom : (s.caches cpu).length ≤ cacheSize := by
    simp only [batch,cacheSize] at hdone ⊢
    omega
  have hal := h.pages.alloc hb hpos 0
  unfold refill
  split
  · dsimp only
    split
    · rename_i hzero
      rw [Buddy.allocPage] at hzero
      rw [if_pos hzero] at hal
      have h' : Ok base total { s with buddy := s.buddy.allocPage.2 } :=
        ⟨hal,h.fits,h.freeing,h.alone⟩
      exact takePage_ok h' hroom
    rename_i hne
    rw [Buddy.allocPage] at hne
    rw [if_neg hne] at hal
    refine h.write cpu (.refilling (done+1)) (hal.perm ?_) ?_ (by simp [Phase.freeing])
      fun c ptr _ hc => h.freeing c ptr hc
    · exact (((gather_push s.caches cpu _).map (·,0)).append_right s.live).symm
    simp only [Phase.Fits,length_cons]
    omega
  · exact takePage_ok h hroom

theorem allocPages_ok (hb : pageSize ∣ base) (hpos : 0 < base) (hidle : s.phases cpu = .idle) (count : Nat) :
    (s.allocPages cpu count).pmm.Ok base total := by
  have hal := h.pages.alloc hb hpos (Buddy.pagesToOrder count)
  unfold allocPages
  split
  · exact h
  rename_i hzero
  split
  · exact allocPage_ok h hidle
  have hr : s.buddy.allocPages count = s.buddy.alloc (Buddy.pagesToOrder count) := by
    simp [Buddy.allocPages,hzero]
  dsimp only
  rw [hr]
  split
  · rename_i hnone
    rw [if_pos hnone] at hal
    exact ⟨hal,h.fits,h.freeing,h.alone⟩
  rename_i hsome
  rw [if_neg hsome] at hal
  exact ⟨hal.perm perm_middle.symm,h.fits,
    fun c ptr hc => mem_cons_of_mem _ (h.freeing c ptr hc),h.alone⟩

theorem freePage_ok (hidle : s.phases cpu = .idle) {ptr : Nat} (hv : s.Valid (.start cpu (.freePage ptr))) :
    (s.freePage cpu ptr).pmm.Ok base total := by
  have hfits := h.fits cpu
  rw [hidle] at hfits
  unfold freePage
  split
  · exact h
  rename_i hzero
  obtain ⟨hm,halone⟩ := hv.resolve_left hzero
  split
  · refine h.setPhase ?_ ?_
    · simp only [Phase.Fits,batch] at hfits ⊢
      omega
    intro ptr' heq
    cases heq
    exact ⟨hm,fun c _ => halone c⟩
  · exact putPage_ok h hm (by omega) fun c _ => halone c

theorem drain_ok (hb : pageSize ∣ base) (hpos : 0 < base) {done all ptr : Nat}
    (hphase : s.phases cpu = .draining done all ptr) :
    (s.drain cpu done all ptr).pmm.Ok base total := by
  have hfits := h.fits cpu
  rw [hphase] at hfits
  obtain ⟨hall,hdone,hlen⟩ := hfits
  have hfree : (s.phases cpu).freeing = some ptr := by rw [hphase]; rfl
  have hm := h.freeing cpu ptr hfree
  have halone : ∀ c ≠ cpu, (s.phases c).freeing ≠ some ptr :=
    fun c hc hf => hc (h.alone c cpu ptr hf hfree)
  simp only [batch,cacheSize] at hall hlen
  unfold drain
  split
  · split
    · exact h
    rename_i page rest hl
    have hpop := ((gather_pop hl).map (·,0)).append_right s.live
    have hpage : (page,0) ∈ s.cached ++ s.live := by
      rw [show s.cached ++ s.live = (gather s.caches).map (·,0) ++ s.live from rfl,hpop.mem_iff]
      simp
    refine h.write cpu (.draining (done+1) all ptr)
      ((h.pages.free hb hpos hpage).perm ?_) ?_ ?_ fun c p _ hc => h.freeing c p hc
    · have he := hpop.erase (page,0)
      simp only [map_cons,cons_append,erase_cons_head] at he
      exact he
    · simp only [hl,length_cons] at hlen
      simp only [Phase.Fits,batch,cacheSize]
      omega
    intro p heq
    cases heq
    exact ⟨hm,halone⟩
  · exact putPage_ok h hm (by simp only [cacheSize]; omega) halone

end

theorem dispatch_ok (h : s.Ok base total) (hb : pageSize ∣ base) (hpos : 0 < base) {e : Event n}
    (hv : s.Valid e) : (s.dispatch e).pmm.Ok base total := by
  cases e with
  | start cpu call =>
    unfold dispatch
    dsimp only
    split
    · rename_i hidle
      cases call with
      | allocPage => exact allocPage_ok h hidle
      | allocPages count => exact allocPages_ok h hb hpos hidle count
      | freePage ptr => exact freePage_ok h hidle hv
    · exact h
  | resume cpu =>
    unfold dispatch
    dsimp only
    split
    · exact h
    · exact refill_ok h hb hpos ‹_›
    · exact drain_ok h hb hpos ‹_›

theorem run_ok (n : Nat) {base : Nat} (total : Nat) (hb : pageSize ∣ base) (hpos : 0 < base)
    (es : List (Event n))
    (hok : (machine n base total).Along Valid (machine n base total).initial es) :
    ((machine n base total).run es).Ok base total := by
  refine (machine n base total).runFrom_invariant Valid (I := Ok base total)
    (fun s e h he => dispatch_ok h hb hpos he) ⟨?_,?_,?_,?_⟩ es hok
  · have hnil : gather (fun _ : Fin n => ([] : List Nat)) = [] := by
      rw [eq_nil_iff_forall_not_mem]
      simp [mem_gather]
    simpa [machine,cached,hnil] using Buddy.Partition.init hb total
  all_goals simp [machine,Phase.Fits,Phase.freeing]

theorem takePage_cases (s : Pmm n) (cpu : Fin n) :
    (s.caches cpu = [] ∧ (s.takePage cpu).result = some (0,0)) ∨
    ∃ page ∈ s.caches cpu, (s.takePage cpu).result = some (page,0) ∧
      (s.takePage cpu).pmm.live = (page,0) :: s.live := by
  unfold takePage
  split
  · exact .inl ⟨‹_›,rfl⟩
  rename_i page rest hl
  exact .inr ⟨page,by simp [hl],rfl,rfl⟩

variable {addr order : Nat}

theorem takePage_live {cpu : Fin n} (hr : (s.takePage cpu).result = some (addr,order)) (hne : addr ≠ 0) :
    (s.takePage cpu).pmm.live = (addr,order) :: s.live := by
  rcases takePage_cases s cpu with ⟨-,h0⟩ | ⟨page,-,hp,hl⟩
  · simp only [h0,some.injEq,Prod.mk.injEq] at hr
    omega
  rw [hp] at hr
  cases hr
  exact hl

theorem allocPage_live {cpu : Fin n} (hr : (s.allocPage cpu).result = some (addr,order))
    (hne : addr ≠ 0) :
    (s.allocPage cpu).pmm.live = (addr,order) :: s.live := by
  unfold allocPage at hr ⊢
  split at hr
  · simp at hr
  rename_i hl
  rw [if_neg hl]
  exact takePage_live hr hne

theorem refill_live {cpu : Fin n} {done : Nat} (hr : (s.refill cpu done).result = some (addr,order))
    (hne : addr ≠ 0) :
    (s.refill cpu done).pmm.live = (addr,order) :: s.live := by
  unfold refill at hr ⊢
  dsimp only at hr ⊢
  split at hr
  · rename_i hlt
    rw [if_pos hlt]
    split at hr
    · rename_i hz
      rw [if_pos hz]
      exact takePage_live hr hne
    · simp at hr
  rename_i hlt
  rw [if_neg hlt]
  exact takePage_live hr hne

theorem allocPages_live {cpu : Fin n} {count : Nat}
    (hr : (s.allocPages cpu count).result = some (addr,order)) (hne : addr ≠ 0) :
    (s.allocPages cpu count).pmm.live = (addr,order) :: s.live := by
  unfold allocPages at hr ⊢
  dsimp only at hr ⊢
  split at hr
  · simp only [some.injEq,Prod.mk.injEq] at hr
    omega
  rename_i h0
  rw [if_neg h0]
  split at hr
  · rename_i h1
    rw [if_pos h1]
    exact allocPage_live hr hne
  rename_i h1
  rw [if_neg h1]
  split at hr
  · simp only [some.injEq,Prod.mk.injEq] at hr
    omega
  rename_i hz
  rw [if_neg hz]
  simp only [some.injEq,Prod.mk.injEq] at hr
  simp [hr.1,hr.2]

theorem free_silent (s : Pmm n) (cpu : Fin n) (done all ptr : Nat) :
    (s.freePage cpu ptr).result = none ∧ (s.drain cpu done all ptr).result = none := by
  constructor
  · unfold freePage
    split
    · rfl
    split <;> rfl
  unfold drain
  split
  · split <;> rfl
  · rfl

theorem dispatch_live {e : Event n} (hr : (s.dispatch e).result = some (addr,order)) (hne : addr ≠ 0) :
    (s.dispatch e).pmm.live = (addr,order) :: s.live := by
  cases e with
  | start cpu call =>
    unfold dispatch at hr ⊢
    dsimp only at hr ⊢
    split at hr
    · cases call with
      | allocPage => exact allocPage_live hr hne
      | allocPages count => exact allocPages_live hr hne
      | freePage ptr => simp [(free_silent s cpu 0 0 ptr).1] at hr
    · simp at hr
  | resume cpu =>
    unfold dispatch at hr ⊢
    dsimp only at hr ⊢
    split at hr
    · simp at hr
    · exact refill_live hr hne
    rename_i done all ptr hphase
    simp [(free_silent s cpu done all ptr).2] at hr

section
variable (h : s.Ok base total) (hb : pageSize ∣ base) (hpos : 0 < base)
include h hb hpos

theorem alloc_zero_empty (hz : s.buddy.allocPage.1 = 0) : Buddy.freePagesOf s.buddy.freeLists = [] := by
  rw [eq_nil_iff_forall_not_mem]
  intro x hx
  obtain ⟨k,hk,a,ha,-⟩ := Buddy.mem_freePagesOf.mp hx
  rcases Buddy.alloc_cases s.buddy 0 with ⟨-,hwhy⟩ | ⟨current,addr,rest,-,hc,-,hl,hr⟩
  · have hnil := (hwhy.resolve_left (by simp)) k (Nat.zero_le k) hk
    simp [hnil] at ha
  have hin := h.pages.free_inside hb hc (a := addr) (by simp [hl])
  rw [Buddy.allocPage,hr] at hz
  omega

theorem takePage_null {cpu : Fin n} (hr : (s.takePage cpu).result = some (0,order)) : s.caches cpu = [] := by
  rcases takePage_cases s cpu with ⟨hnil,-⟩ | ⟨page,hm,hp,-⟩
  · exact hnil
  rw [hp] at hr
  simp only [some.injEq,Prod.mk.injEq] at hr
  exact absurd hr.1 (h.nonzero hb hpos hm)

theorem refill_null {cpu : Fin n} {done : Nat} (hphase : s.phases cpu = .refilling done)
    (hr : (s.refill cpu done).result = some (0,order)) :
    s.caches cpu = [] ∧ Buddy.freePagesOf s.buddy.freeLists = [] := by
  unfold refill at hr
  dsimp only at hr
  split at hr
  · split at hr
    · rename_i hz
      have hal := h.pages.alloc hb hpos 0
      rw [Buddy.allocPage] at hz
      rw [if_pos hz] at hal
      have h' : Ok base total { s with buddy := s.buddy.allocPage.2 } :=
        ⟨hal,h.fits,h.freeing,h.alone⟩
      exact ⟨takePage_null h' hb hpos hr,alloc_zero_empty h hb hpos hz⟩
    · simp at hr
  -- after a whole batch the stack is not empty
  · rename_i hge
    have hfits := h.fits cpu
    rw [hphase] at hfits
    have hnil := takePage_null h hb hpos hr
    simp only [Phase.Fits,hnil,length_nil,batch,cacheSize] at hfits hge
    omega

theorem start_not_null {cpu : Fin n} {call : Call} (hcall : call = .allocPage ∨ call = .allocPages 1) :
    (s.dispatch (.start cpu call)).result ≠ some (0,order) := by
  have halloc : (s.allocPage cpu).result ≠ some (0,order) := by
    unfold allocPage
    split
    · simp
    rename_i hcache
    exact fun hr => hcache (takePage_null h hb hpos hr)
  unfold dispatch
  dsimp only
  split
  · rcases hcall with rfl | rfl
    · exact halloc
    · simpa [allocPages] using halloc
  · simp

theorem resume_null {cpu : Fin n} (hr : (s.dispatch (.resume cpu)).result = some (0,order)) :
    s.caches cpu = [] ∧ Buddy.freePagesOf s.buddy.freeLists = [] := by
  unfold dispatch at hr
  dsimp only at hr
  split at hr
  · simp at hr
  · exact refill_null h hb hpos ‹_› hr
  rename_i done all ptr hphase
  simp [(free_silent s cpu done all ptr).2] at hr

end

end Pmm

/-- Whatever the processors do, each page is in a free block, in one slot of one stack or in
one live allocation; no page is returned while it is live, a stack has 64 pages at most, and
`alloc_page` returns null only with an empty stack and no page free. -/
theorem page_conservation (n base total : Nat) (hb : pageSize ∣ base) (hpos : 0 < base)
    (es : List (Pmm.Event n))
    (hok : (Pmm.machine n base total).Along Pmm.Valid (Pmm.machine n base total).initial es) :
    let s := (Pmm.machine n base total).run es
    (Buddy.freePagesOf s.buddy.freeLists ++ (gather s.caches).map (·/pageSize) ++
      Buddy.livePagesOf s.live).Perm (range' (base/pageSize) total) ∧
    (∀ cpu, ∀ page ∈ s.caches cpu, pageSize ∣ page) ∧
    (∀ e, s.Valid e → ∀ addr order, (s.dispatch e).result = some (addr,order) → addr ≠ 0 →
      (s.step e).live = (addr,order) :: s.live ∧
      ∀ x ∈ Buddy.pagesOf addr order, x ∉ Buddy.livePagesOf s.live) ∧
    (∀ cpu, (s.caches cpu).length ≤ 64) ∧
    ∀ cpu, ∀ e ∈ [.start cpu .allocPage,.start cpu (.allocPages 1),.resume cpu], ∀ order,
      (s.dispatch e).result = some (0,order) →
        s.caches cpu = [] ∧ Buddy.freePagesOf s.buddy.freeLists = [] := by
  intro s
  have h : s.Ok base total := Pmm.run_ok n total hb hpos es hok
  refine ⟨?_,fun cpu page hp => ?_,fun e he addr order hr hne => ?_,fun cpu => ?_,?_⟩
  · have hp := h.pages.pages
    have hone : ∀ page, Buddy.pagesOf page 0 = [page/pageSize] := by simp [Buddy.pagesOf]
    rw [map_eq_flatMap]
    simpa [Buddy.livePagesOf,Pmm.cached,flatMap_map,hone] using hp
  · have hm : (page,0) ∈ s.cached ++ s.live := by
      simpa [Pmm.cached] using .inl (mem_gather.mpr ⟨cpu,hp⟩)
    simpa [Buddy.Aligned] using (h.pages.handed _ hm).2
  · have hlive : (s.step e).live = (addr,order) :: s.live := Pmm.dispatch_live hr hne
    refine ⟨hlive,fun x hx hold => ?_⟩
    have hnd := (nodup_append'.mp (Pmm.dispatch_ok h hb hpos he).pages.nodup).2.1
    have hlive' : (s.dispatch e).pmm.live = (addr,order) :: s.live := hlive
    rw [hlive',Buddy.livePagesOf,flatMap_append,nodup_append'] at hnd
    have htail := hnd.2.1
    rw [flatMap_cons,nodup_append'] at htail
    exact htail.2.2 hx hold
  · have hfits := h.fits cpu
    cases hphase : s.phases cpu with
    | idle => simpa [Pmm.Phase.Fits,hphase,Pmm.cacheSize] using hfits
    | refilling done =>
      simp only [Pmm.Phase.Fits,hphase,Pmm.batch,Pmm.cacheSize] at hfits
      omega
    | draining done all ptr =>
      simp only [Pmm.Phase.Fits,hphase,Pmm.batch,Pmm.cacheSize] at hfits
      omega
  intro cpu e he order hr
  simp only [mem_cons,not_mem_nil,or_false] at he
  rcases he with rfl | rfl | rfl
  · exact absurd hr (Pmm.start_not_null h hb hpos (.inl rfl))
  · exact absurd hr (Pmm.start_not_null h hb hpos (.inr rfl))
  · exact Pmm.resume_null h hb hpos hr

namespace Pmm

def twoPages : List (Event 2) :=
  [.start 0 .allocPage,.resume 0,.resume 0,.resume 0,.start 1 (.allocPages 1),.resume 1,
    .start 0 (.freePage 4096)]

end Pmm

theorem page_conservation_twoPages : ((Pmm.machine 2 4096 2).run Pmm.twoPages).caches 0 = [4096,8192] ∧
    (Buddy.freePagesOf ((Pmm.machine 2 4096 2).run Pmm.twoPages).buddy.freeLists ++
      (gather ((Pmm.machine 2 4096 2).run Pmm.twoPages).caches).map (·/pageSize) ++
      Buddy.livePagesOf ((Pmm.machine 2 4096 2).run Pmm.twoPages).live).Perm [1,2] :=
  ⟨by decide +kernel,
    (page_conservation 2 4096 2 (by decide) (by decide) Pmm.twoPages (by decide +kernel)).1⟩

end Rucux.Memory
