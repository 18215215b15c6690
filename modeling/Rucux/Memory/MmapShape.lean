import Rucux.Lib.Slots
import Rucux.Memory.Mmap
import Rucux.Memory.VmaRefinement

namespace Rucux.Memory
open Lib VmaManager List PageTable Function BitVec Option AList

variable {n : Nat}

theorem has_or_self {x m : BitVec 32} (hm : m ≠ 0) : has (x ||| m) m = true := by
  have h : (x ||| m) &&& m = m := by
    ext i hi
    simp only [getElem_and,getElem_or]
    cases x[i] <;> cases m[i] <;> rfl
  simpa [has,h] using hm

section
variable {x m b : BitVec 32}

theorem has_or_of_disjoint (h : m &&& b = 0) : has (x ||| m) b = has x b := by
  have h1 : (x ||| m) &&& b = x &&& b := by
    rw [and_or_distrib_right,h]
    exact or_zero
  rw [has,has,h1]

theorem has_clear (h : ~~~m &&& b = b) : has (x &&& ~~~m) b = has x b := by
  rw [has,has,BitVec.and_assoc,h]

theorem has_eq_false_of_masked (hx : x &&& ~~~m = 0) (h : ~~~m &&& b = b) : has x b = false := by
  have h1 : x &&& b = 0 := by
    rw [← h,← BitVec.and_assoc,hx]
    exact zero_and
  simp [has,h1]

end

theorem page_mul_div {a : Nat} (h : a % pageSize = 0) : a / pageSize * pageSize = a := by
  simp only [pageSize] at h ⊢
  omega

theorem pageBase_of_aligned {a : Nat} (h : a % pageSize = 0) : pageBase a = a := page_mul_div h

theorem pageBase_mod (a : Nat) : pageBase a % pageSize = 0 := Nat.mul_mod_left _ _

theorem add_pages_mod {a i : Nat} (h : a % pageSize = 0) : (a + i*pageSize) % pageSize = 0 := by
  rw [Nat.add_mul_mod_self_right,h]

theorem exists_page {a k m : Nat} (ha : a % pageSize = 0) (hk : k % pageSize = 0) (h1 : a ≤ k)
    (h2 : k < a + m*pageSize) : ∃ i, i < m ∧ k = a + i*pageSize := by
  refine ⟨(k-a)/pageSize,?_,?_⟩
  · rw [Nat.div_lt_iff_lt_mul (by decide)]
    omega
  · simp only [pageSize] at *
    omega

def ownsPage (f : Nat → Option Mapping) (k : Nat) : Bool :=
  (f (k*pageSize)).any fun w => has w.flags vmaOwnsFrames

theorem ownsPage_eq_true {f : Nat → Option Mapping} {k : Nat} : ownsPage f k = true ↔
    ∃ w, f (k*pageSize) = some w ∧ has w.flags vmaOwnsFrames = true := by
  rw [ownsPage]
  cases f (k*pageSize) <;> simp

/-- Every frame that is out is with one call or under one leaf of a region that owns its frames;
no other leaf has one of them, and no callback supplied one. -/
structure Frames (f : Nat → Option Mapping) (pt : PageTable) (held : Fin n → List Nat)
    (out supplied : List Nat) : Prop where
  custody : Custody held (pt.framesWhere (ownsPage f)) out
  aligned : ∀ x ∈ out, x ≠ 0 ∧ x % pageSize = 0
  foreign : ∀ k l, pt.leaf k = some l → l.frame ∈ out → ownsPage f k = true
  apart : ∀ x ∈ supplied, x ∉ out

def Freeable (pt : PageTable) (out supplied : List Nat) (x : Nat) : Prop :=
  x ∈ out ∧ x ∉ supplied ∧ ∀ e ∈ pt.entries, e.2.frame ≠ x

namespace Frames
variable {f f' : Nat → Option Mapping} {pt : PageTable} {held : Fin n → List Nat}
  {out supplied : List Nat} {t : Fin n} {x k : Nat} {l : Leaf}

section
variable (h : Frames f pt held out supplied)
include h

theorem remap (hown : ∀ k l, pt.leaf k = some l → ownsPage f' k = ownsPage f k) :
    Frames f' pt held out supplied := by
  refine ⟨?_,h.aligned,fun k l hl hm => ?_,h.apart⟩
  · rw [framesWhere_congr hown]
    exact h.custody
  · rw [hown k l hl]
    exact h.foreign k l hl hm

theorem keep {xs : List Nat} (ht : held t = xs) : Frames f pt (update held t xs) out supplied :=
  ⟨h.custody.keep ht,h.aligned,h.foreign,h.apart⟩

theorem take (ht : held t = []) (h0 : x ≠ 0) (ha : x % pageSize = 0) (hx : x ∉ out) (hs : x ∉ supplied)
    (hl : ∀ e ∈ pt.entries, e.2.frame ≠ x) :
    Frames f pt (update held t [x]) (x :: out) supplied := by
  refine ⟨h.custody.take hx ht,?_,fun k l hk hm => ?_,fun y hy hm => ?_⟩
  · exact forall_mem_cons.mpr ⟨⟨h0,ha⟩,h.aligned⟩
  · rcases mem_cons.mp hm with hm | hm
    · exact absurd hm (hl ⟨k,l⟩ (mem_entries.mpr hk))
    · exact h.foreign k l hk hm
  rcases mem_cons.mp hm with rfl | hm
  · exact hs hy
  · exact h.apart y hy hm

theorem supply (hx : x ∉ out) : Frames f pt held out (x :: supplied) :=
  ⟨h.custody,h.aligned,h.foreign,forall_mem_cons.mpr ⟨hx,h.apart⟩⟩

theorem freeable (ht : held t = [x]) : Freeable pt out supplied x := by
  have hx : x ∈ out := h.custody.mem_of_held (t := t) (by simp [ht])
  refine ⟨hx,fun hs => h.apart x hs hx,fun e he hf => ?_⟩
  have hl := mem_entries.mp he
  have hown := h.foreign e.1 e.2 hl (by rwa [hf])
  have hm : x ∈ pt.framesWhere (ownsPage f) := mem_framesWhere.mpr ⟨e.1,e.2,hl,hown,hf⟩
  rcases h.custody.exclusive hx with ⟨-,hno⟩ | ⟨hno,-⟩
  · exact hno hm
  · exact hno t (by simp [ht])

theorem giveBack (ht : held t = [x]) : Frames f pt (update held t []) (out.erase x) supplied :=
  ⟨h.custody.giveBack ht,fun y hy => h.aligned y (mem_of_mem_erase hy),
    fun k l hk hm => h.foreign k l hk (mem_of_mem_erase hm),
    fun y hy hm => h.apart y hy (mem_of_mem_erase hm)⟩

theorem install (ht : held t = [x]) (hk : pt.leaf k = none) (hown : ownsPage f k = true) (hl : l.frame = x) :
    Frames f (insert k l pt) (update held t []) out supplied := by
  refine ⟨h.custody.put ht ?_,h.aligned,fun j m hj hm => ?_,h.apart⟩
  · rw [framesWhere_insert hk,if_pos hown,hl]
    exact .refl _
  rcases leaf_of_insert hj with ⟨hjk,-⟩ | ⟨-,hj⟩
  · rwa [hjk]
  · exact h.foreign j m hj hm

theorem installForeign (hk : pt.leaf k = none) (hown : ownsPage f k = false) (hl : l.frame ∉ out) :
    Frames f (insert k l pt) held out supplied := by
  refine ⟨h.custody.restore ?_,h.aligned,fun j m hj hm => ?_,h.apart⟩
  · rw [framesWhere_insert hk,if_neg (by simp [hown])]
    exact .refl _
  rcases leaf_of_insert hj with ⟨-,rfl⟩ | ⟨-,hj⟩
  · exact absurd hm hl
  · exact h.foreign j m hj hm

end

theorem leaf_of_erase {j : Nat} {m : Leaf} (h : leaf (erase k pt) j = some m) :
    j ≠ k ∧ pt.leaf j = some m := by
  by_cases hjk : j = k
  · rw [hjk,leaf,lookup_erase] at h
    cases h
  · exact ⟨hjk,by rwa [leaf,lookup_erase_ne hjk] at h⟩

theorem detach (h : Frames f pt held out supplied) (ht : held t = []) (hk : pt.leaf k = some l)
    (hown : ownsPage f k = true) :
    Frames f (erase k pt) (update held t [l.frame]) out supplied := by
  refine ⟨h.custody.fetch ht ?_,h.aligned,fun j m hj hm => ?_,h.apart⟩
  · have hp := framesWhere_erase (ownsPage f) hk
    rwa [if_pos hown] at hp
  · exact h.foreign j m (leaf_of_erase hj).2 hm

section
variable (h : Frames f pt held out supplied) (hk : pt.leaf k = some l)
include h hk

theorem forget (hown : ownsPage f k = false) : Frames f (erase k pt) held out supplied := by
  refine ⟨h.custody.restore ?_,h.aligned,fun j m hj hm => ?_,h.apart⟩
  · have hp := framesWhere_erase (ownsPage f) hk
    rw [if_neg (by simp [hown])] at hp
    exact hp.symm
  · exact h.foreign j m (leaf_of_erase hj).2 hm

theorem reclaim (hown : ownsPage f k = true) : Freeable (erase k pt) out supplied l.frame ∧
      Frames f (erase k pt) held (out.erase l.frame) supplied := by
  have hp := framesWhere_erase (ownsPage f) hk
  rw [if_pos hown] at hp
  have hx : l.frame ∈ out :=
    h.custody.mem_of_store (mem_framesWhere.mpr ⟨k,l,hk,hown,rfl⟩)
  have hnd : (l.frame :: framesWhere (ownsPage f) (erase k pt)).Nodup :=
    hp.nodup_iff.mp (nodup_append.mp h.custody.placed_nodup).2.1
  refine ⟨⟨hx,fun hs => h.apart _ hs hx,fun e he hf => ?_⟩,h.custody.giveBackStored hp,?_,?_,?_⟩
  · have hl := mem_entries.mp he
    have hown' := h.foreign e.1 e.2 (leaf_of_erase hl).2 (by rwa [hf])
    exact (nodup_cons.mp hnd).1 (mem_framesWhere.mpr ⟨e.1,e.2,hl,hown',hf⟩)
  · exact fun y hy => h.aligned y (mem_of_mem_erase hy)
  · exact fun j m hj hm => h.foreign j m (leaf_of_erase hj).2 (mem_of_mem_erase hm)
  · exact fun y hy hm => h.apart y hy (mem_of_mem_erase hm)

theorem repaint {l' : Leaf} (hl : l'.frame = l.frame) : Frames f (insert k l' pt) held out supplied := by
  refine ⟨h.custody.restore (framesWhere_replace hk hl),h.aligned, fun j m hj hm => ?_,h.apart⟩
  rcases leaf_of_insert hj with ⟨hjk,rfl⟩ | ⟨-,hj⟩
  · rw [hjk]
    exact h.foreign k l hk (by rwa [← hl])
  · exact h.foreign j m hj hm

end

end Frames

/-- No region is writable and executable, and a leaf in a region has that region's flags. -/
structure Guarded (f : Nat → Option Mapping) (pt : PageTable) : Prop where
  exclusive : ∀ a w, f a = some w → writeAndExec w.prot = false
  flags : ∀ k l w, pt.leaf k = some l → f (k*pageSize) = some w → l.flags = flagsForProt w.prot

namespace Guarded
variable {f f' : Nat → Option Mapping} {pt pt' : PageTable} {k : Nat} {l : Leaf}

theorem remap (h : Guarded f pt) (hf : ∀ a w, f' a = some w → writeAndExec w.prot = false)
    (hl : ∀ k l w, pt.leaf k = some l → f' (k*pageSize) = some w →
      ∃ v, f (k*pageSize) = some v ∧ v.prot = w.prot) : Guarded f' pt := by
  refine ⟨hf,fun k l w hk hw => ?_⟩
  obtain ⟨v,hv,hp⟩ := hl k l w hk hw
  rw [← hp]
  exact h.flags k l v hk hv

theorem insert (h : Guarded f pt) (hl : ∀ w, f (k*pageSize) = some w → l.flags = flagsForProt w.prot) :
    Guarded f (insert k l pt) := by
  refine ⟨h.exclusive,fun j m w hj hw => ?_⟩
  rcases leaf_of_insert hj with ⟨hjk,rfl⟩ | ⟨-,hj⟩
  · exact hl w (by rwa [← hjk])
  · exact h.flags j m w hj hw

theorem sub (h : Guarded f pt) (hsub : ∀ k l, pt'.leaf k = some l → pt.leaf k = some l) : Guarded f pt' :=
  ⟨h.exclusive,fun k l w hk hw => h.flags k l w (hsub k l hk) hw⟩

end Guarded

/-- The reservation has its record; only the pages from `lo` to `hi` have leaves. -/
structure Reservation.Held (p : Reservation) (lo hi : Nat) (rs : List (Nat × Vma))
    (pt : PageTable) : Prop where
  aligned : p.start % pageSize = 0
  limit : p.stop < 2^64
  within : hi ≤ p.pages
  ownsMark : has p.vflags vmaOwnsFrames = p.source.owns
  ownsIff : p.source.owns = !p.fileMap
  record : ∃ a, (a,p.vma) ∈ rs
  leaves : ∀ k l, pt.leaf k = some l → p.start ≤ k*pageSize → k*pageSize < p.stop →
    p.page lo ≤ k*pageSize ∧ k*pageSize < p.page hi

namespace Reservation

def Apart (p q : Reservation) : Prop := p.stop ≤ q.start ∨ q.stop ≤ p.start

variable {p q : Reservation} {lo hi lo' hi' : Nat} {rs rs' : List (Nat × Vma)} {pt pt' : PageTable}

theorem has_populating (p : Reservation) : has p.vflags vmaPopulating = true :=
  has_or_self (by decide)

theorem kept {start stop : Nat} (hk : Keeps start stop rs rs')
    (hno : p.stop ≤ start ∨ stop ≤ p.start) : ∀ a, (a,p.vma) ∈ rs → (a,p.vma) ∈ rs' := by
  intro a ha
  refine hk _ ha fun hm => ?_
  have h1 : p.start < stop := hm.1
  have h2 : start < p.stop := hm.2
  omega

namespace Held

section
variable (h : p.Held lo hi rs pt)
include h

theorem mono (hrec : ∀ a, (a,p.vma) ∈ rs → (a,p.vma) ∈ rs')
    (hleaf : ∀ k l, pt'.leaf k = some l → p.start ≤ k*pageSize → k*pageSize < p.stop → ∃ l', pt.leaf k = some l') :
    p.Held lo hi rs' pt' := by
  obtain ⟨a,ha⟩ := h.record
  refine ⟨h.aligned,h.limit,h.within,h.ownsMark,h.ownsIff,⟨a,hrec a ha⟩,fun k l hk h1 h2 => ?_⟩
  obtain ⟨l',hk'⟩ := hleaf k l hk h1 h2
  exact h.leaves k l' hk' h1 h2

theorem content (ho : vmaExtent.Ordered rs) {a : Nat} (h1 : p.start ≤ a) (h2 : a < p.stop) :
    Memory.content rs a = some (p.vma.mapping a) := by
  obtain ⟨b,hb⟩ := h.record
  exact ho.content_of_mem hb ⟨h1,h2⟩

theorem page_lt {i : Nat} (hi' : i < hi) : p.start ≤ p.page i ∧ p.page i < p.stop := by
  have hw := h.within
  simp only [Reservation.page,Reservation.stop,pageSize]
  omega

theorem page_mod (i : Nat) : p.page i % pageSize = 0 :=
  add_pages_mod h.aligned

theorem ownsPage_eq (ho : vmaExtent.Ordered rs) {k : Nat} (h1 : p.start ≤ k*pageSize)
    (h2 : k*pageSize < p.stop) :
    ownsPage (Memory.content rs) k = p.source.owns := by
  rw [ownsPage,h.content ho h1 h2]
  exact h.ownsMark

end

end Held
end Reservation

namespace Call

def held : Call → List Nat
  | .installing p _ phys => if p.source.owns then [phys] else []
  | .releasing _ _ _ frame _ => [frame]
  | .mapping _ _ _ frame => [frame]
  | .discarding frame _ => [frame]
  | .idle _ | .populating _ _ | .unwinding _ _ _ _ | .resetting _ _ | .faulting _ _ _ => []

def pending : Call → Option (Reservation × Nat × Nat)
  | .populating p i => some (p,0,i)
  | .installing p i _ => some (p,0,i)
  | .releasing p installed i _ _ => some (p,i,installed)
  | .unwinding p installed i _ => some (p,i,installed)
  | .idle _ | .resetting _ _ | .faulting _ _ _ | .mapping _ _ _ _ | .discarding _ _ => none

def Ok (supplied : List Nat) : Call → Prop
  | .installing p i phys =>
    i < p.pages ∧ (p.source.owns = false → phys ≠ 0 ∧ pageBase phys ∈ supplied)
  | .resetting p _ => p.start % pageSize = 0
  | .faulting page _ _ => page % pageSize = 0
  | .mapping page _ _ _ => page % pageSize = 0
  | .idle _ | .populating _ _ | .releasing _ _ _ _ _ | .unwinding _ _ _ _ | .discarding _ _ => True

theorem Ok.mono {xs ys : List Nat} (hsub : xs ⊆ ys) {c : Call} (h : c.Ok xs) : c.Ok ys := by
  cases c with
  | installing p i phys => exact ⟨h.1,fun ho => ⟨(h.2 ho).1,hsub (h.2 ho).2⟩⟩
  | _ => exact h

end Call

structure Pending (rs : List (Nat × Vma)) (pt : PageTable) (calls : Fin n → Call) : Prop where
  holds : ∀ t p lo hi, (calls t).pending = some (p,lo,hi) → p.Held lo hi rs pt
  apart : ∀ t u p q lo hi lo' hi', t ≠ u → (calls t).pending = some (p,lo,hi) →
    (calls u).pending = some (q,lo',hi') → p.Apart q

namespace Pending
variable {rs rs' : List (Nat × Vma)} {pt pt' : PageTable} {calls : Fin n → Call} {t : Fin n}
  {c : Call} {p : Reservation} {lo hi lo' hi' : Nat}

section
variable (h : Pending rs pt calls)
include h

theorem update (hothers : ∀ u ≠ t, ∀ q lo hi, (calls u).pending = some (q,lo,hi) → q.Held lo hi rs' pt')
    (hmine : ∀ p lo hi, c.pending = some (p,lo,hi) → p.Held lo hi rs' pt' ∧ ∀ u ≠ t, ∀ q lo hi,
      (calls u).pending = some (q,lo,hi) → p.Apart q) :
    Pending rs' pt' (update calls t c) := by
  constructor
  · intro u p lo hi hu
    by_cases hut : u = t
    · subst hut
      rw [update_self] at hu
      exact (hmine p lo hi hu).1
    · rw [update_of_ne hut] at hu
      exact hothers u hut p lo hi hu
  intro u v p q lo hi lo' hi' huv hu hv
  by_cases hut : u = t
  · subst hut
    rw [update_self] at hu
    rw [update_of_ne (Ne.symm huv)] at hv
    exact (hmine p lo hi hu).2 v (Ne.symm huv) q lo' hi' hv
  rw [update_of_ne hut] at hu
  by_cases hvt : v = t
  · subst hvt
    rw [update_self] at hv
    exact ((hmine q lo' hi' hv).2 u huv p lo hi hu).symm
  · rw [update_of_ne hvt] at hv
    exact h.apart u v p q lo hi lo' hi' huv hu hv

theorem advance (ht : (calls t).pending = some (p,lo,hi)) (hc : c.pending = some (p,lo',hi'))
    (hmine : p.Held lo' hi' rs' pt')
    (hothers : ∀ u ≠ t, ∀ q lo hi, (calls u).pending = some (q,lo,hi) → q.Held lo hi rs' pt') :
    Pending rs' pt' (Function.update calls t c) := by
  refine h.update hothers fun q lo hi hq => ?_
  rw [hc] at hq
  obtain ⟨rfl,rfl,rfl⟩ : p = q ∧ lo' = lo ∧ hi' = hi := by simpa using hq
  exact ⟨hmine,fun u hu q lo hi hq => h.apart t u p q _ _ lo hi (Ne.symm hu) ht hq⟩

theorem drop (hc : c.pending = none)
    (hothers : ∀ u ≠ t, ∀ q lo hi, (calls u).pending = some (q,lo,hi) → q.Held lo hi rs' pt') :
    Pending rs' pt' (Function.update calls t c) :=
  h.update hothers fun p lo hi hp => by rw [hc] at hp; cases hp

theorem same (hc : c.pending = (calls t).pending) : Pending rs pt (Function.update calls t c) := by
  refine h.update (fun u _ q lo hi hq => h.holds u q lo hi hq) fun p lo hi hp => ?_
  rw [hc] at hp
  exact ⟨h.holds t p lo hi hp,fun u hu q lo' hi' hq => h.apart t u p q lo hi lo' hi' (Ne.symm hu) hp hq⟩

end

end Pending

structure Mm.Sound (s : Mm n) : Prop where
  view : View s.vmas s.vmas.records
  frames : Frames s.vmas.mapping s.pages (fun t => (s.calls t).held) s.out s.supplied
  guarded : Guarded s.vmas.mapping s.pages
  pending : Pending s.vmas.records s.pages s.calls
  calls : ∀ t, (s.calls t).Ok s.supplied
  next : s.nextMmap % pageSize = 0

namespace Mm
variable {s : Mm n} {t : Fin n} {c : Call}

theorem held_update (calls : Fin n → Call) (t : Fin n) (c : Call) :
    (fun u => (update calls t c u).held) =
      update (fun u => (calls u).held) t c.held := by
  funext u
  by_cases hu : u = t
  · subst hu
    simp
  · simp [hu]

theorem ok_update {calls : Fin n → Call} {xs : List Nat} (h : ∀ t, (calls t).Ok xs) (hc : c.Ok xs)
    (u : Fin n) : (update calls t c u).Ok xs := by
  by_cases hu : u = t
  · subst hu
    rwa [update_self]
  · rw [update_of_ne hu]
    exact h u

theorem Sound.setCall (h : s.Sound) (hheld : (s.calls t).held = c.held)
    (hpend : c.pending = (s.calls t).pending ∨ c.pending = none) (hok : c.Ok s.supplied) :
    (s.setCall t c).Sound where
  view := h.view
  frames := by
    simp only [Mm.setCall,held_update]
    exact h.frames.keep hheld
  guarded := h.guarded
  pending := by
    rcases hpend with hp | hp
    · exact h.pending.same hp
    · exact h.pending.drop hp fun u _ q lo hi hq => h.pending.holds u q lo hi hq
  calls := ok_update h.calls hok
  next := h.next

theorem freePage_eq {x : Nat} (h : Freeable s.pages s.out s.supplied x) :
    s.freePage x = some { s with out := s.out.erase x } := if_pos h

end Mm

theorem VmaManager.View.regionAt {m : VmaManager} {rs : List (Nat × Vma)} (h : View m rs)
    (a : Nat) : ∃ r, m.regionAt a = some r ∧ content rs a = r.map (·.mapping a) := by
  obtain ⟨b,h1,⟨rfl,hno⟩ | ⟨xs,v,ys,rfl,hv,hv'⟩⟩ := h.find a
  · exact ⟨none,by simp [VmaManager.regionAt,h1],Extent.content_eq_none.mpr hno⟩
  have hmem : (b,v) ∈ xs ++ (b,v) :: ys := by simp
  have hb : b ≠ 0 := h.ne_zero hmem
  have hr : m.regions b = some v := h.regions (b,v) hmem
  exact ⟨some v,by simp [VmaManager.regionAt,h1,hb,hr],h.ordered.content_of_mem hmem ⟨hv,hv'⟩⟩

namespace Mm
variable {s : Mm n} {m : VmaManager} {rs : List (Nat × Vma)}

theorem forall_pages_succ {P : Nat → Prop} {k a : Nat} (h0 : P a)
    (hs : ∀ i < k, P (a + pageSize + i*pageSize)) : ∀ i < k+1, P (a + i*pageSize) := by
  intro i hi
  cases i with
  | zero => simpa using h0
  | succ i =>
    have h1 := hs i (by omega)
    rwa [show a + pageSize + i*pageSize = a + (i+1)*pageSize by rw [Nat.add_mul]; omega] at h1

theorem occupied_spec (h : View s.vmas rs) (k a : Nat) :
    ∃ code, s.occupied k a = some code ∧ (code = 0 → ∀ i < k,
      content rs (a + i*pageSize) = none ∧ s.pages.getPhys (a + i*pageSize) = 0) := by
  induction k generalizing a with
  | zero => exact ⟨0,rfl,fun _ i hi => absurd hi (Nat.not_lt_zero i)⟩
  | succ k ih =>
    obtain ⟨r,h1,h2⟩ := h.regionAt a
    cases r with
    | some r =>
      refine ⟨if has r.flags vmaPopulating then -16 else -17,by simp [occupied,h1],fun h0 => ?_⟩
      split at h0 <;> omega
    | none =>
      by_cases hp : s.pages.getPhys a = 0
      · obtain ⟨code,h3,h4⟩ := ih (a + pageSize)
        refine ⟨code,by simp [occupied,h1,hp,h3],fun h0 => ?_⟩
        exact forall_pages_succ (P := fun x => content rs x = none ∧ s.pages.getPhys x = 0)
          ⟨by simpa using h2,hp⟩ (h4 h0)
      · exact ⟨-17,by simp [occupied,h1,hp],fun h0 => by omega⟩

theorem populationInRange_spec (h : View m rs) (k a : Nat) :
    ∃ b, populationInRange m k a = some b ∧ (b = false ↔ ∀ i < k, ∀ w,
      content rs (a + i*pageSize) = some w → has w.flags vmaPopulating = false) := by
  induction k generalizing a with
  | zero => exact ⟨false,rfl,iff_of_true rfl fun i hi => absurd hi (Nat.not_lt_zero i)⟩
  | succ k ih =>
    obtain ⟨r,h1,h2⟩ := h.regionAt a
    by_cases hr : r.any (fun r => has r.flags vmaPopulating) = true
    · refine ⟨true,by simp [populationInRange,h1,hr],iff_of_false (by simp) fun hall => ?_⟩
      obtain ⟨r,rfl,hr⟩ := (Option.any_eq_true _ _).mp hr
      have hno := hall 0 (Nat.succ_pos k) (r.mapping a) (by simpa using h2)
      exact Bool.false_ne_true (hno.symm.trans hr)
    obtain ⟨b,h3,h4⟩ := ih (a + pageSize)
    refine ⟨b,by simp [populationInRange,h1,hr,h3],fun h0 => ?_,fun hall => h4.mpr fun i hi w hw => ?_⟩
    swap
    · refine hall (i + 1) (Nat.succ_lt_succ hi) w ?_
      rwa [Nat.succ_mul,← Nat.add_assoc,Nat.add_right_comm]
    refine forall_pages_succ (P := fun x => ∀ w, content rs x = some w →
      has w.flags vmaPopulating = false) (fun w hw => ?_) (h4.mp h0)
    cases r with
    | none => simp [h2] at hw
    | some r =>
      obtain rfl : r.mapping a = w := by simpa [h2] using hw
      simpa [Vma.mapping] using hr

section
variable {held : Fin n → List Nat} (hv : View s.vmas rs)
  (hf : Frames (content rs) s.pages held s.out s.supplied) (k : Nat) {a : Nat} (ha : a % pageSize = 0)
include hv hf ha

theorem unmapPages_spec :
    ∃ code pages out, unmapPages k a s = some (code,{ s with pages := pages, out := out }) ∧
      Frames (content rs) pages held out s.supplied ∧
      (∀ j l, pages.leaf j = some l → s.pages.leaf j = some l) ∧
      (code = 0 → ∀ i < k, ∀ l, pages.leaf ((a + i*pageSize)/pageSize) = some l →
        content rs (a + i*pageSize) = none) := by
  induction k generalizing a s with
  | zero => exact ⟨0,s.pages,s.out,rfl,hf,fun _ _ h => h,fun _ i hi => absurd hi (Nat.not_lt_zero i)⟩
  | succ k ih =>
    have ha' : (a + pageSize) % pageSize = 0 := by rw [Nat.add_mod_right,ha]
    obtain ⟨r,h1,h2⟩ := hv.regionAt a
    cases r with
    | none =>
      obtain ⟨code,pages,out,h3,h4,h5,h6⟩ := ih hv hf ha'
      refine ⟨code,pages,out,by simp [unmapPages,h1,h3],h4,h5,fun h0 => ?_⟩
      exact forall_pages_succ (P := fun x => ∀ l, pages.leaf (x/pageSize) = some l →
        content rs x = none) (fun _ _ => by simpa using h2) (h6 h0)
    | some r =>
      by_cases hpop : has r.flags vmaPopulating = true
      · exact ⟨-16,s.pages,s.out,by simp [unmapPages,h1,hpop],hf,fun _ _ h => h,fun h0 => by omega⟩
      have hpop' : has r.flags vmaPopulating = false := by simpa using hpop
      have hown : ownsPage (content rs) (a/pageSize) = has r.flags vmaOwnsFrames := by
        rw [ownsPage,page_mul_div ha,h2]
        rfl
      -- the page's own round: what the table and the frames are after it
      have hround : ∃ out, (if has r.flags vmaOwnsFrames && s.pages.getPhys a ≠ 0 then
            freePage { s with pages := s.pages.unmap a } (pageBase (s.pages.getPhys a))
          else some { s with pages := s.pages.unmap a }) =
            some { s with pages := s.pages.unmap a, out := out } ∧
          Frames (content rs) (s.pages.unmap a) held out s.supplied := by
        cases hl : s.pages.leaf (a/pageSize) with
        | none =>
          have h0 : s.pages.getPhys a = 0 := getPhys_eq_zero.mpr hl
          refine ⟨s.out,by simp [h0],?_⟩
          rwa [unmap_of_none hl]
        | some l =>
          rw [getPhys_of_leaf hl]
          cases ho : has r.flags vmaOwnsFrames with
          | false => exact ⟨s.out,by simp,hf.forget hl (hown.trans ho)⟩
          | true =>
            obtain ⟨hfree,hf'⟩ := hf.reclaim hl (hown.trans ho)
            refine ⟨s.out.erase l.frame,?_,hf'⟩
            rw [if_pos (by simp [l.present])]
            exact freePage_eq (s := { s with pages := s.pages.unmap a }) hfree
      obtain ⟨out1,hstep,hf1⟩ := hround
      obtain ⟨code,pages,out,h3,h4,h5,h6⟩ :=
        ih (s := { s with pages := s.pages.unmap a, out := out1 }) hv hf1 ha'
      refine ⟨code,pages,out,?_,h4,fun j l hj => ?_,fun h0 => ?_⟩
      · rw [unmapPages]
        simp only [h1,bind_eq_bind,bind_some,hpop',Bool.false_eq_true,if_false]
        rw [hstep]
        exact h3
      · exact (Frames.leaf_of_erase (h5 j l hj)).2
      refine forall_pages_succ (P := fun x => ∀ l, pages.leaf (x/pageSize) = some l →
        content rs x = none) (fun l hl => ?_) (h6 h0)
      exact absurd rfl (Frames.leaf_of_erase (h5 _ l hl)).1

theorem protectPages_spec
    (hin : ∀ i < k, ∃ w, content rs (a + i*pageSize) = some w ∧ has w.flags vmaPopulating = false)
    (hok : ∀ j l w, s.pages.leaf j = some l → content rs (j*pageSize) = some w → a ≤ j*pageSize ∧
      j*pageSize < a + k*pageSize ∨ l.flags = flagsForProt w.prot) :
    ∃ pages, protectPages k a s = some (0,{ s with pages := pages }) ∧
      Frames (content rs) pages held s.out s.supplied ∧
      (∀ j l, pages.leaf j = some l → ∃ l', s.pages.leaf j = some l') ∧
      ∀ j l w, pages.leaf j = some l → content rs (j*pageSize) = some w →
        l.flags = flagsForProt w.prot := by
  induction k generalizing a s with
  | zero =>
    refine ⟨s.pages,rfl,hf,fun j l hj => ⟨l,hj⟩,fun j l w hj hw => ?_⟩
    rcases hok j l w hj hw with h | h
    · omega
    · exact h
  | succ k ih =>
    have ha' : (a + pageSize) % pageSize = 0 := by rw [Nat.add_mod_right,ha]
    obtain ⟨w0,hw0,hpop⟩ := hin 0 (by omega)
    have hin' : ∀ i < k, ∃ w, content rs (a + pageSize + i*pageSize) = some w ∧
        has w.flags vmaPopulating = false := by
      intro i hi
      have h1 := hin (i+1) (by omega)
      rwa [show a + (i+1)*pageSize = a + pageSize + i*pageSize by rw [Nat.add_mul]; omega] at h1
    obtain ⟨r,h1,h2⟩ := hv.regionAt a
    cases r with
    | none => simp [h2] at hw0
    | some r =>
      obtain rfl : r.mapping a = w0 := by simpa [h2] using hw0
      have hpop' : has r.flags vmaPopulating = false := hpop
      -- a page other than the first one is in the rest of the range
      have hrest : ∀ j, a ≤ j*pageSize → j*pageSize < a + (k+1)*pageSize → j ≠ a/pageSize →
          a + pageSize ≤ j*pageSize ∧ j*pageSize < a + pageSize + k*pageSize := by
        intro j h3 h4 h5
        simp only [pageSize] at *
        omega
      cases hl : s.pages.leaf (a/pageSize) with
      | none =>
        have h0 : s.pages.getPhys a = 0 := getPhys_eq_zero.mpr hl
        obtain ⟨pages,h3,h4,h5,h6⟩ := ih hv hf ha' hin' (by
          intro j l w hj hw
          rcases hok j l w hj hw with h | h
          · refine .inl (hrest j h.1 h.2 fun hja => ?_)
            rw [hja,hl] at hj
            cases hj
          · exact .inr h)
        exact ⟨pages,by simp [protectPages,h1,hpop',h0,h3],h4,h5,h6⟩
      | some l =>
        have h0 : s.pages.getPhys a ≠ 0 := by
          rw [getPhys_of_leaf hl]
          exact l.present
        have hprot := protect_spec (flagsForProt r.prot) hl
        let painted := insert (a/pageSize) { l with flags := flagsForProt r.prot } s.pages
        obtain ⟨pages,h3,h4,h5,h6⟩ := ih (s := { s with pages := painted }) hv
            (hf.repaint hl rfl) ha' hin' (by
          intro j m w hj hw
          rcases leaf_of_insert hj with ⟨hja,rfl⟩ | ⟨hja,hj⟩
          · rw [hja,page_mul_div ha,h2] at hw
            obtain rfl := some.inj hw
            exact .inr rfl
          rcases hok j m w hj hw with h | h
          · exact .inl (hrest j h.1 h.2 hja)
          · exact .inr h)
        refine ⟨pages,by simpa [protectPages,h1,hpop',h0,hprot] using h3,h4,fun j m hj => ?_,h6⟩
        obtain ⟨m',hm'⟩ := h5 j m hj
        rcases leaf_of_insert hm' with ⟨hja,-⟩ | ⟨-,hm⟩
        · exact ⟨l,by rw [hja,hl]⟩
        · exact ⟨m',hm⟩

end

end Mm
end Rucux.Memory
