import Rucux.Memory.Buddy
import Rucux.Lib.Dyadic
import Rucux.Lib.Slots

namespace Rucux.Memory
open Lib Function List Buddy

namespace Buddy

def pagesOf (addr order : Nat) : List Nat := range' (addr/pageSize) (2^order)

def freePagesOf (f : Nat → List Nat) : List Nat :=
  (range (maxOrder+1)).flatMap fun k => (f k).flatMap (pagesOf · k)

def livePagesOf (live : List (Nat × Nat)) : List Nat := live.flatMap fun b => pagesOf b.1 b.2

def Aligned (addr order : Nat) : Prop := pageSize*2^order ∣ addr

def ListsAligned (f : Nat → List Nat) : Prop := ∀ k ≤ maxOrder, ∀ a ∈ f k, Aligned a k

theorem mem_pagesOf {x addr order : Nat} :
    x ∈ pagesOf addr order ↔ Dyadic.In x (addr/pageSize) order := by
  simp [pagesOf,Dyadic.In,mem_range'_1]

section
variable {f : Nat → List Nat} {addr order : Nat}

theorem Aligned.page (h : Aligned addr order) : pageSize*(addr/pageSize) = addr :=
  Nat.mul_div_cancel' ((Dvd.intro _ rfl).trans h)

theorem Aligned.dyadic (h : Aligned addr order) : 2^order ∣ addr/pageSize := by
  obtain ⟨c,rfl⟩ := h
  rw [Nat.mul_assoc,Nat.mul_div_cancel_left _ (by decide)]
  exact Dvd.intro c rfl

theorem aligned_iff {p : Nat} : Aligned (pageSize*p) order ↔ 2^order ∣ p :=
  Nat.mul_dvd_mul_iff_left (by decide)

theorem shift_eq (order : Nat) : pageSize <<< order = pageSize*2^order := Nat.shiftLeft_eq ..

theorem page_add (n : Nat) : (addr + pageSize*n)/pageSize = addr/pageSize + n :=
  Nat.add_mul_div_left _ _ (by decide)

theorem buddyOf_eq (h : Aligned addr order) :
    buddyOf addr order = pageSize*Dyadic.buddy (addr/pageSize) order := by
  have hs : ∀ n, pageSize*n = n <<< 12 := by
    intro n
    rw [Nat.shiftLeft_eq,Nat.mul_comm]
    rfl
  have hd := Nat.shiftLeft_xor_distrib (a := addr/pageSize) (b := 2^order) (i := 12)
  rw [buddyOf,shift_eq,Dyadic.buddy,hs (_ ^^^ _),hd,← hs,← hs,h.page]

section
variable {k : Nat} (hk : k ≤ maxOrder)
include hk

theorem freePagesOf_update (l : List Nat) : freePagesOf (update f k l) ++ (f k).flatMap (pagesOf · k) ~
      freePagesOf f ++ l.flatMap (pagesOf · k) := by
  have hf : (fun j => (update f k l j).flatMap (pagesOf · j)) =
      update (fun j => (f j).flatMap (pagesOf · j)) k (l.flatMap (pagesOf · k)) := by
    funext j
    by_cases hj : j = k
    · subst hj; simp
    · simp [hj]
  rw [freePagesOf,hf]
  exact flatMap_update nodup_range (mem_range.mpr (by omega)) _ _

theorem link_perm (a : Nat) : freePagesOf (link f k a) ~ pagesOf a k ++ freePagesOf f := by
  have h := freePagesOf_update (f := f) hk (a :: f k)
  rw [perm_iff_count] at h ⊢
  intro x
  have hx := h x
  simp only [link,flatMap_cons,count_append] at hx ⊢
  omega

theorem unlink_perm {a : Nat} (ha : a ∈ f k) :
    pagesOf a k ++ freePagesOf (unlink f k a) ~ freePagesOf f := by
  have h := freePagesOf_update (f := f) hk ((f k).erase a)
  have he := (perm_cons_erase ha).flatMap_right (pagesOf · k)
  rw [perm_iff_count] at h he ⊢
  intro x
  have hx := h x
  have hex := he x
  simp only [unlink,flatMap_cons,count_append] at hx hex ⊢
  omega

end

theorem pagesOf_halves (addr order : Nat) :
    pagesOf addr (order+1) = pagesOf addr order ++ pagesOf (addr + (pageSize <<< order)) order := by
  rw [pagesOf,pagesOf,pagesOf,shift_eq,page_add,Nat.pow_succ,Nat.mul_two,← range'_append_1]

theorem ListsAligned.link (h : ListsAligned f) {k a : Nat} (ha : Aligned a k) :
    ListsAligned (link f k a) := by
  intro j hj b hb
  by_cases hjk : j = k
  · subst hjk
    simp only [Buddy.link,update_self,mem_cons] at hb
    rcases hb with rfl | hb
    · exact ha
    · exact h j hj b hb
  · simp only [Buddy.link,update_of_ne hjk] at hb
    exact h j hj b hb

theorem ListsAligned.mono (h : ListsAligned f) {g : Nat → List Nat} (hg : ∀ k, g k ⊆ f k) :
    ListsAligned g := fun k hk a ha => h k hk a (hg k ha)

theorem unlink_subset (f : Nat → List Nat) (k a j : Nat) : unlink f k a j ⊆ f j := by
  by_cases hj : j = k
  · subst hj
    simp only [unlink,update_self]
    exact erase_subset
  · simp [unlink,hj]

theorem upper_aligned {current : Nat} (h : Aligned addr (current+1)) :
    Aligned (addr + (pageSize <<< current)) current := by
  rw [shift_eq]
  refine Nat.dvd_add (Nat.dvd_trans ?_ h) (dvd_refl _)
  exact Nat.mul_dvd_mul_left _ (Nat.pow_dvd_pow 2 (Nat.le_succ current))

theorem Aligned.lower {current : Nat} (h : Aligned addr (current+1)) : Aligned addr current :=
  Nat.dvd_trans (Nat.mul_dvd_mul_left _ (Nat.pow_dvd_pow 2 (Nat.le_succ current))) h

theorem splitDown_spec {current : Nat} (horder : order ≤ current) (hc : current ≤ maxOrder)
    (hf : ListsAligned f) (ha : Aligned addr current) :
    ListsAligned (splitDown order addr current f) ∧ Aligned addr order ∧
      pagesOf addr current ++ freePagesOf f ~
        pagesOf addr order ++ freePagesOf (splitDown order addr current f) := by
  induction current generalizing f with
  | zero =>
    obtain rfl : order = 0 := by omega
    exact ⟨hf,ha,.refl _⟩
  | succ current ih =>
    by_cases hlt : order < current+1
    · obtain ⟨hal,haddr,hperm⟩ := ih (f := link f current (addr + (pageSize <<< current)))
        (by omega) (by omega) (hf.link (upper_aligned ha)) ha.lower
      simp only [splitDown,hlt,if_true]
      refine ⟨hal,haddr,.trans ?_ hperm⟩
      rw [pagesOf_halves,append_assoc]
      exact (link_perm (by omega) _).symm.append_left _
    obtain rfl : order = current+1 := by omega
    simp only [splitDown,hlt,if_false]
    exact ⟨hf,ha,.refl _⟩

theorem merged_pages (h : Aligned addr order) :
    Aligned (if buddyOf addr order < addr then buddyOf addr order else addr) (order+1) ∧
      pagesOf addr order ++ pagesOf (buddyOf addr order) order ~
        pagesOf (if buddyOf addr order < addr then buddyOf addr order else addr) (order+1) := by
  have hpos : 0 < pageSize*2^order := Nat.mul_pos (by decide) (Nat.two_pow_pos order)
  have hpage := h.page
  rw [buddyOf_eq h]
  rcases Dyadic.buddy_cases h.dyadic with ⟨hd,hb⟩ | ⟨hle,hd,hb⟩
  · rw [hb,Nat.mul_add,hpage,if_neg (by omega),pagesOf_halves,shift_eq]
    refine ⟨?_,.refl _⟩
    rw [← hpage]
    exact aligned_iff.mpr hd
  have hle' : pageSize*2^order ≤ addr := by
    rw [← hpage]
    exact Nat.mul_le_mul_left _ hle
  rw [hb,Nat.mul_sub,hpage,if_pos (by omega),pagesOf_halves,shift_eq,Nat.sub_add_cancel hle']
  refine ⟨?_,perm_append_comm⟩
  have ha := aligned_iff.mpr hd
  rwa [Nat.mul_sub,hpage] at ha

theorem coalesce_spec {n : Nat} (hn : order + n = maxOrder) (hf : ListsAligned f)
    (ha : Aligned addr order) :
    let r := coalesce n f addr order
    ListsAligned r.1 ∧ Aligned r.2.1 r.2.2 ∧ r.2.2 ≤ maxOrder ∧
      pagesOf addr order ++ freePagesOf f ~ pagesOf r.2.1 r.2.2 ++ freePagesOf r.1 := by
  induction n generalizing f addr order with
  | zero => exact ⟨hf,ha,by simp only [coalesce]; omega,.refl _⟩
  | succ n ih =>
    by_cases hb : buddyOf addr order ∈ f order
    · obtain ⟨hm,hpages⟩ := merged_pages ha
      simp only [coalesce,hb,if_true]
      obtain ⟨hal,haddr,hle,hperm⟩ := ih (by omega)
        (hf.mono (unlink_subset f order (buddyOf addr order))) hm
      refine ⟨hal,haddr,hle,.trans ?_ hperm⟩
      have hu := unlink_perm (show order ≤ maxOrder by omega) hb
      rw [perm_iff_count] at hu hpages ⊢
      intro x
      have hux := hu x
      have hpx := hpages x
      simp only [count_append] at hux hpx ⊢
      omega
    · simp only [coalesce,hb,if_false]
      exact ⟨hf,ha,by omega,.refl _⟩

theorem fitOrder_spec {remaining : Nat} (haddr : pageSize ∣ addr) (hr : 0 < remaining) (m : Nat) :
    let order := fitOrder addr remaining m
    order ≤ m ∧ 2^order ≤ remaining ∧ Aligned addr order ∧
      (order < m → 2^(order+1) ≤ remaining → ¬ Aligned addr (order+1)) := by
  induction m with
  | zero => exact ⟨le_rfl,hr,by simpa [fitOrder,Aligned] using haddr,by simp [fitOrder]⟩
  | succ m ih =>
    have hmod : addr % (2^(m+1)*pageSize) = 0 ↔ Aligned addr (m+1) := by
      rw [← Nat.dvd_iff_mod_eq_zero,Nat.mul_comm]
      rfl
    by_cases hfit : 2^(m+1) ≤ remaining ∧ addr % (2^(m+1)*pageSize) = 0
    · simp only [fitOrder,if_pos hfit]
      exact ⟨le_rfl,hfit.1,hmod.mp hfit.2,fun hn => absurd hn (lt_irrefl _)⟩
    simp only [fitOrder,if_neg hfit]
    obtain ⟨hle,hsize,hal,hmax⟩ := ih
    refine ⟨by omega,hsize,hal,fun hlt hrem ha => ?_⟩
    by_cases hm : fitOrder addr remaining m = m
    · rw [hm] at hrem ha
      exact hfit ⟨hrem,hmod.mpr ha⟩
    · exact hmax (by omega) hrem ha

theorem fill_spec {n remaining free : Nat} (haddr : pageSize ∣ addr) (hn : remaining ≤ n)
    (hf : ListsAligned f) :
    let r := fill n addr remaining f free
    ListsAligned r.1 ∧ r.2 = free + remaining ∧
      freePagesOf r.1 ~ freePagesOf f ++ range' (addr/pageSize) remaining := by
  induction n generalizing addr remaining f free with
  | zero =>
    obtain rfl : remaining = 0 := by omega
    simpa [fill] using hf
  | succ n ih =>
    by_cases hr : remaining = 0
    · subst hr
      simpa [fill] using hf
    obtain ⟨hle,hsize,hal,-⟩ := fitOrder_spec haddr (Nat.pos_of_ne_zero hr) maxOrder
    simp only [fill,hr,if_false]
    generalize fitOrder addr remaining maxOrder = k at hle hsize hal
    have hpos := Nat.two_pow_pos k
    have hnext : (addr + 2^k*pageSize)/pageSize = addr/pageSize + 2^k := by
      rw [Nat.mul_comm,page_add]
    have hless : remaining - 2^k ≤ n := by omega
    obtain ⟨hal',hfree,hperm⟩ := ih (Nat.dvd_add haddr (Dvd.intro_left _ rfl)) hless (hf.link hal)
    refine ⟨hal',by omega,hperm.trans ?_⟩
    have hl := link_perm (f := f) hle addr
    have hsplit : range' (addr/pageSize) remaining =
        pagesOf addr k ++ range' (addr/pageSize + 2^k) (remaining - 2^k) := by
      rw [pagesOf,range'_append_1,Nat.add_sub_cancel' hsize]
    rw [hnext,hsplit]
    rw [perm_iff_count] at hl ⊢
    intro x
    have hx := hl x
    simp only [count_append] at hx ⊢
    omega

end

structure Partition (base total : Nat) (b : Buddy) (live : List (Nat × Nat)) : Prop where
  arena : b.base = base ∧ b.totalPages = total
  aligned : ListsAligned b.freeLists
  handed : ∀ x ∈ live, x.2 ≤ maxOrder ∧ Aligned x.1 x.2
  pages : freePagesOf b.freeLists ++ livePagesOf live ~ range' (base/pageSize) total
  counted : b.freePages = (freePagesOf b.freeLists).length

section
variable {base total : Nat} {b : Buddy} {live : List (Nat × Nat)}

theorem pagesOf_inside (hb : pageSize ∣ base) {addr order : Nat} (ha : Aligned addr order)
    (h : pagesOf addr order ⊆ range' (base/pageSize) total) :
    base ≤ addr ∧ addr + pageSize*2^order ≤ base + pageSize*total := by
  have hpos := Nat.two_pow_pos order
  have hfirst := h (mem_pagesOf.mpr (Dyadic.in_self _ _))
  have hlast : addr/pageSize + (2^order-1) ∈ range' (base/pageSize) total :=
    h (mem_pagesOf.mpr ⟨by omega,by omega⟩)
  simp only [mem_range'_1] at hfirst hlast
  have hpage := ha.page
  have hbase : pageSize*(base/pageSize) = base := Nat.mul_div_cancel' hb
  constructor
  · rw [← hpage,← hbase]
    exact Nat.mul_le_mul_left _ hfirst.1
  · rw [← hpage,← hbase,← Nat.mul_add,← Nat.mul_add]
    exact Nat.mul_le_mul_left _ (by omega)

theorem mem_freePagesOf {f : Nat → List Nat} {x : Nat} :
    x ∈ freePagesOf f ↔ ∃ k ≤ maxOrder, ∃ a ∈ f k, x ∈ pagesOf a k := by
  simp only [freePagesOf,mem_flatMap,mem_range,Nat.lt_succ_iff]

section
variable (h : Partition base total b live) (hb : pageSize ∣ base)
include h hb

theorem Partition.free_inside {a k : Nat} (hk : k ≤ maxOrder) (ha : a ∈ b.freeLists k) :
    base ≤ a ∧ a + pageSize*2^k ≤ base + pageSize*total := by
  refine pagesOf_inside hb (h.aligned k hk a ha) fun x hx => h.pages.subset ?_
  exact mem_append_left _ (mem_freePagesOf.mpr ⟨k,hk,a,ha,hx⟩)

theorem Partition.live_inside {x : Nat × Nat} (hx : x ∈ live) :
    base ≤ x.1 ∧ x.1 + pageSize*2^x.2 ≤ base + pageSize*total := by
  refine pagesOf_inside hb (h.handed x hx).2 fun y hy => h.pages.subset ?_
  exact mem_append_right _ (mem_flatMap.mpr ⟨x,hx,hy⟩)

end

theorem alloc_cases (b : Buddy) (order : Nat) : (b.alloc order = (0,b) ∧
      (maxOrder < order ∨ ∀ k, order ≤ k → k ≤ maxOrder → b.freeLists k = [])) ∨
    ∃ current addr rest, order ≤ current ∧ current ≤ maxOrder ∧
      (∀ k, order ≤ k → k < current → b.freeLists k = []) ∧
      b.freeLists current = addr :: rest ∧
      b.alloc order = (addr,{ b with
        freeLists := splitDown order addr current (update b.freeLists current rest)
        freePages := b.freePages - 2^order }) := by
  unfold alloc
  split
  · exact .inl ⟨rfl,.inl ‹_›⟩
  cases hf : findOrder b.freeLists order with
  | none =>
    refine .inl ⟨rfl,.inr fun k hk hm => ?_⟩
    have hnone := find?_eq_none.mp hf k (mem_range'_1.mpr ⟨hk,by omega⟩)
    simpa using hnone
  | some current =>
    obtain ⟨hp,before,after,hsplit,hbefore⟩ := find?_eq_some_iff_append.mp hf
    have hmem := mem_range'_1.mp (mem_of_find?_eq_some hf)
    cases hl : b.freeLists current with
    | nil => simp [hl] at hp
    | cons addr rest =>
      refine .inr ⟨current,addr,rest,hmem.1,by omega,fun k hk hlt => ?_,hl,by simp only [hl]⟩
      have hkm : k ∈ before := by
        have hmk : k ∈ range' order (maxOrder+1 - order) :=
          mem_range'_1.mpr ⟨hk,by omega⟩
        rw [hsplit] at hmk
        rcases mem_append.mp hmk with hm | hm
        · exact hm
        have hs : (range' order (maxOrder+1 - order)).Pairwise (· < ·) :=
          pairwise_lt_range'
        rw [hsplit] at hs
        rcases mem_cons.mp hm with rfl | hm
        · omega
        have hlt' := (pairwise_cons.mp (pairwise_append.mp hs).2.1).1 k hm
        omega
      simpa using hbefore k hkm

section
variable (h : Partition base total b live) (hb : pageSize ∣ base) (hpos : 0 < base)
include h hb hpos

theorem Partition.alloc (order : Nat) : Partition base total (b.alloc order).2
      (if (b.alloc order).1 = 0 then live else ((b.alloc order).1,order) :: live) := by
  rcases alloc_cases b order with ⟨hn,-⟩ | ⟨current,addr,rest,hoc,hc,-,hl,hr⟩
  · rw [hn]
    exact h
  have haddr : addr ∈ b.freeLists current := by simp [hl]
  have hal := h.aligned current hc addr haddr
  have hne : addr ≠ 0 := by
    have hin := h.free_inside hb hc haddr
    omega
  have hupd : update b.freeLists current rest = unlink b.freeLists current addr := by
    simp [unlink,hl]
  obtain ⟨hal',haddr',hperm⟩ := splitDown_spec hoc hc
    (h.aligned.mono (unlink_subset b.freeLists current addr)) hal
  have hperm' := (unlink_perm hc haddr).symm.trans hperm
  rw [hr,hupd]
  simp only [hne,if_false]
  refine ⟨h.arena,hal',?_,?_,?_⟩
  · simp only [mem_cons]
    rintro x (rfl | hx)
    · exact ⟨by omega,haddr'⟩
    · exact h.handed x hx
  · refine Perm.trans ?_ h.pages
    rw [perm_iff_count] at hperm' ⊢
    intro x
    have hx := hperm' x
    simp only [livePagesOf,flatMap_cons,count_append] at hx ⊢
    omega
  have hlen := hperm'.length_eq
  simp only [length_append,pagesOf,length_range'] at hlen
  rw [h.counted]
  simp only
  omega

section
variable {addr order : Nat} (hm : (addr,order) ∈ live)
include hm

theorem Partition.owns : b.owns addr order = true := by
  obtain ⟨hle,hal⟩ := h.handed _ hm
  obtain ⟨hlo,hhi⟩ := h.live_inside hb hm
  have hmod : addr % (pageSize <<< order) = 0 := by
    rw [shift_eq]
    exact Nat.mod_eq_zero_of_dvd hal
  obtain ⟨d,hd⟩ : pageSize ∣ addr - base := Nat.dvd_sub ((Dvd.intro _ rfl).trans hal) hb
  have hdiv : (addr - base)/pageSize = d := by rw [hd,Nat.mul_div_cancel_left _ (by decide)]
  have hroom : d + 2^order ≤ total := by
    have hmul : pageSize*(d + 2^order) ≤ pageSize*total := by
      rw [Nat.mul_add]
      simp only at hlo hhi
      omega
    exact Nat.le_of_mul_le_mul_left hmul (by decide)
  have htwo := Nat.two_pow_pos order
  simp only [Buddy.owns,h.arena.1,h.arena.2,hdiv,hmod]
  simp only [ne_eq,not_true_eq_false,decide_false,Bool.or_false,Bool.not_eq_true',Bool.or_eq_false_iff,
    decide_eq_false_iff_not]
  omega

theorem Partition.free : Partition base total (b.free addr order) (live.erase (addr,order)) := by
  obtain ⟨hle,hal⟩ := h.handed _ hm
  obtain ⟨hal',haddr',hle',hperm⟩ := coalesce_spec (n := maxOrder - order)
    (by simp only at hle; omega) h.aligned hal
  simp only [Buddy.free,h.owns hb hpos hm,if_true]
  generalize coalesce (maxOrder - order) b.freeLists addr order = r at hal' haddr' hle' hperm
  have hlink := link_perm (f := r.1) hle' r.2.1
  have hlive := (perm_cons_erase hm).flatMap_right fun x => pagesOf x.1 x.2
  refine ⟨h.arena,hal'.link haddr',fun x hx => h.handed x (mem_of_mem_erase hx),?_,?_⟩
  · refine Perm.trans ?_ h.pages
    rw [perm_iff_count] at hperm hlink hlive ⊢
    intro x
    have h₁ := hperm x
    have h₂ := hlink x
    have h₃ := hlive x
    simp only [livePagesOf,flatMap_cons,count_append] at h₁ h₂ h₃ ⊢
    omega
  have h₁ := hperm.length_eq
  have h₂ := hlink.length_eq
  simp only [length_append,pagesOf,length_range'] at h₁ h₂
  simp only [h.counted]
  omega

end

end

theorem Partition.init (hb : pageSize ∣ base) (total : Nat) :
    Partition base total (init base total) [] := by
  have hnil : freePagesOf (fun _ => []) = [] := by
    rw [eq_nil_iff_forall_not_mem]
    simp [mem_freePagesOf]
  have hfill := @fill_spec (fun _ => []) base total total 0 hb le_rfl (by simp [ListsAligned])
  obtain ⟨hal,hfree,hperm⟩ := hfill
  rw [hnil,nil_append] at hperm
  refine ⟨⟨rfl,rfl⟩,hal,by simp,?_,?_⟩
  · rw [livePagesOf,flatMap_nil,append_nil]
    exact hperm
  have hlen := hperm.length_eq
  rw [length_range'] at hlen
  change (fill total base total (fun _ => []) 0).2 = (freePagesOf (fill total base total _ 0).1).length
  omega

theorem run_partition (hb : pageSize ∣ base) (hpos : 0 < base) (es : List Event)
    (hok : (machine base total).Along World.Valid (machine base total).initial es) :
    Partition base total ((machine base total).run es).buddy ((machine base total).run es).live := by
  refine (machine base total).runFrom_invariant World.Valid
    (I := fun w => Partition base total w.buddy w.live) (fun w e h he => ?_)
    (.init hb total) es hok
  cases e with
  | alloc order => exact h.alloc hb hpos order
  | free addr order => exact h.free hb hpos he

def freeBlocks (f : Nat → List Nat) : List (Nat × Nat) :=
  (range (maxOrder+1)).flatMap fun k => (f k).map (·,k)

theorem freeBlocks_pages (f : Nat → List Nat) :
    (freeBlocks f).flatMap (fun x => pagesOf x.1 x.2) = freePagesOf f := by
  simp [freeBlocks,freePagesOf,flatMap_assoc,flatMap_map]

theorem nodup_of_pages {bs : List (Nat × Nat)} (h : (bs.flatMap fun x => pagesOf x.1 x.2).Nodup) :
    bs.Nodup := by
  induction bs with
  | nil => simp
  | cons x bs ih =>
    rw [flatMap_cons,nodup_append] at h
    refine nodup_cons.mpr ⟨fun hx => ?_,ih h.2.1⟩
    have hfirst : x.1/pageSize ∈ pagesOf x.1 x.2 := mem_pagesOf.mpr (Dyadic.in_self _ _)
    exact h.2.2 _ hfirst _ (mem_flatMap.mpr ⟨x,hx,hfirst⟩) rfl

theorem Partition.nodup (h : Partition base total b live) :
    (freePagesOf b.freeLists ++ livePagesOf live).Nodup :=
  h.pages.nodup_iff.mpr nodup_range'

end
end Buddy

/-- In every run whose frees are of blocks handed out and not freed since, the free blocks and the blocks handed out
divide the pages of the arena among them, aligned and each once, and the count of free pages is right. -/
theorem buddy_partition (base total : Nat) (hb : pageSize ∣ base) (hpos : 0 < base)
    (es : List Buddy.Event)
    (hok : (machine base total).Along Buddy.World.Valid (machine base total).initial es) :
    let w := (machine base total).run es
    (freePagesOf w.buddy.freeLists ++ livePagesOf w.live).Perm
      (range' (base/pageSize) total) ∧
    (∀ x ∈ freeBlocks w.buddy.freeLists ++ w.live,
      pageSize*2^x.2 ∣ x.1 ∧ base ≤ x.1 ∧ x.1 + pageSize*2^x.2 ≤ base + pageSize*total) ∧
    (∀ order, (w.buddy.alloc order).1 ≠ 0 →
      pageSize*2^order ∣ (w.buddy.alloc order).1 ∧ base ≤ (w.buddy.alloc order).1 ∧
        (w.buddy.alloc order).1 + pageSize*2^order ≤ base + pageSize*total) ∧
    (freeBlocks w.buddy.freeLists ++ w.live).Nodup ∧
    w.buddy.freePages = (freePagesOf w.buddy.freeLists).length := by
  intro w
  have h : Buddy.Partition base total w.buddy w.live := run_partition hb hpos es hok
  refine ⟨h.pages,fun x hx => ?_,fun order hne => ?_,?_,h.counted⟩
  · rcases mem_append.mp hx with hx | hx
    · simp only [freeBlocks,mem_flatMap,mem_range,mem_map] at hx
      obtain ⟨k,hk,a,ha,rfl⟩ := hx
      have hk' : k ≤ maxOrder := by omega
      exact ⟨h.aligned k hk' a ha,h.free_inside hb hk' ha⟩
    · exact ⟨(h.handed x hx).2,h.live_inside hb hx⟩
  · have ha := h.alloc hb hpos order
    rw [if_neg hne] at ha
    exact ⟨(ha.handed _ mem_cons_self).2,ha.live_inside hb mem_cons_self⟩
  refine nodup_of_pages ?_
  rw [flatMap_append,freeBlocks_pages]
  exact h.nodup

namespace Buddy

def takenAndReturned : List Event := [.alloc 0,.alloc 1,.free 0x3000 0,.alloc 2]

end Buddy

theorem buddy_partition_takenAndReturned :
    (freePagesOf ((machine 0x3000 5).run takenAndReturned).buddy.freeLists ++
      livePagesOf ((machine 0x3000 5).run takenAndReturned).live).Perm
      [3,4,5,6,7] :=
  (buddy_partition 0x3000 5 (by decide) (by decide) takenAndReturned (by decide +kernel)).1

namespace Buddy

def NoBuddies (f : Nat → List Nat) : Prop := ∀ k < maxOrder, ∀ a ∈ f k, buddyOf a k ∉ f k

theorem buddyOf_ne (addr order : Nat) : buddyOf addr order ≠ addr := by
  intro h
  have hz : addr ^^^ (pageSize <<< order) = addr ^^^ 0 := by rw [Nat.xor_zero]; exact h
  have hs := Nat.xor_right_injective hz
  have hpos : 0 < pageSize*2^order := Nat.mul_pos (by decide) (Nat.two_pow_pos order)
  rw [shift_eq] at hs
  omega

theorem buddyOf_buddyOf (addr order : Nat) : buddyOf (buddyOf addr order) order = addr := by
  simp [buddyOf]

variable {f : Nat → List Nat}

theorem NoBuddies.mono {g : Nat → List Nat} (h : NoBuddies f) (hg : ∀ k, g k ⊆ f k) :
    NoBuddies g := fun k hk a ha hb => h k hk a (hg k ha) (hg k hb)

theorem NoBuddies.link (h : NoBuddies f) {order addr : Nat}
    (hb : order < maxOrder → buddyOf addr order ∉ f order) : NoBuddies (link f order addr) := by
  intro k hk a ha
  by_cases hko : k = order
  · subst hko
    simp only [Buddy.link,update_self,mem_cons] at ha ⊢
    rintro (hs | hs)
    · rcases ha with rfl | ha
      · exact buddyOf_ne a k hs
      have hinv := buddyOf_buddyOf a k
      rw [hs] at hinv
      exact hb hk (hinv ▸ ha)
    rcases ha with rfl | ha
    · exact hb hk hs
    · exact h k hk a ha hs
  · simp only [Buddy.link,update_of_ne hko] at ha ⊢
    exact h k hk a ha

theorem splitDown_lists (order addr current k : Nat) (f : Nat → List Nat) :
    splitDown order addr current f k =
      if order ≤ k ∧ k < current then (addr + (pageSize <<< k)) :: f k else f k := by
  induction current generalizing f with
  | zero => simp [splitDown]
  | succ current ih =>
    by_cases hlt : order < current+1
    · simp only [splitDown,hlt,if_true,ih]
      by_cases hk : k = current
      · subst hk
        simp only [lt_irrefl,and_false,if_false,link,update_self]
        rw [if_pos (by omega)]
      · simp only [link,update_of_ne hk]
        split <;> split <;> first | rfl | omega
    · simp only [splitDown,hlt,if_false]
      rw [if_neg (by omega)]

theorem NoBuddies.alloc {b : Buddy} (h : NoBuddies b.freeLists) (order : Nat) :
    NoBuddies (b.alloc order).2.freeLists := by
  rcases alloc_cases b order with ⟨hn,-⟩ | ⟨current,addr,rest,-,-,hempty,hl,hr⟩
  · rw [hn]
    exact h
  rw [hr]
  intro k hk a ha
  simp only [splitDown_lists] at ha ⊢
  by_cases hin : order ≤ k ∧ k < current
  · -- the lists below the one that is split were empty
    have hnil : update b.freeLists current rest k = [] := by
      rw [update_of_ne (by omega)]
      exact hempty k hin.1 hin.2
    simp only [hin,and_self,if_true,hnil,mem_singleton] at ha ⊢
    rw [← ha]
    exact buddyOf_ne a k
  simp only [hin,if_false] at ha ⊢
  refine (h.mono fun j => ?_) k hk a ha
  by_cases hj : j = current
  · subst hj
    simp [hl]
  · simp [hj]

theorem coalesce_noBuddies {n order : Nat} (addr : Nat) (hn : order + n = maxOrder) (h : NoBuddies f) :
    let r := coalesce n f addr order
    NoBuddies r.1 ∧ (r.2.2 < maxOrder → buddyOf r.2.1 r.2.2 ∉ r.1 r.2.2) := by
  induction n generalizing f addr order with
  | zero =>
    refine ⟨h,fun hlt => ?_⟩
    simp only [coalesce] at hlt
    omega
  | succ n ih =>
    by_cases hb : buddyOf addr order ∈ f order
    · simp only [coalesce,hb,if_true]
      exact ih _ (by omega) (h.mono (unlink_subset f order _))
    · rw [show coalesce (n+1) f addr order = (f,addr,order) by rw [coalesce,if_neg hb]]
      exact ⟨h,fun _ => hb⟩

theorem NoBuddies.free {b : Buddy} (h : NoBuddies b.freeLists) (addr order : Nat) :
    NoBuddies (b.free addr order).freeLists := by
  unfold Buddy.free
  split
  · rename_i hown
    have hle : order ≤ maxOrder := by
      simp only [owns,Bool.not_eq_true',Bool.or_eq_false_iff,decide_eq_false_iff_not] at hown
      omega
    obtain ⟨hno,hlast⟩ := coalesce_noBuddies addr (show order + (maxOrder - order) = maxOrder by omega) h
    exact hno.link hlast
  · exact h

/-- The blocks so far end at `addr` at the latest. A lower half that ends there was left
alone, since less than its size remains. -/
structure Filled (f : Nat → List Nat) (page remaining : Nat) : Prop where
  apart : NoBuddies f
  below : ∀ k ≤ maxOrder, ∀ a ∈ f k, a/pageSize + 2^k ≤ page
  last : ∀ k < maxOrder, ∀ a ∈ f k, a/pageSize + 2^k = page → Aligned a (k+1) → remaining < 2^k

theorem Filled.step {addr remaining : Nat} (h : Filled f (addr/pageSize) remaining)
    (haddr : pageSize ∣ addr) (hr : 0 < remaining) :
    Filled (link f (fitOrder addr remaining maxOrder) addr)
      (addr/pageSize + 2^fitOrder addr remaining maxOrder)
      (remaining - 2^fitOrder addr remaining maxOrder) := by
  obtain ⟨hle,hsize,hal,hmax⟩ := fitOrder_spec haddr hr maxOrder
  generalize fitOrder addr remaining maxOrder = order at hle hsize hal hmax
  have hpos := Nat.two_pow_pos order
  have hmem : ∀ k a, a ∈ link f order addr k → (k = order ∧ a = addr) ∨ a ∈ f k := by
    intro k a ha
    by_cases hk : k = order
    · subst hk
      simp only [link,update_self,mem_cons] at ha
      exact ha.imp_left fun h => ⟨rfl,h⟩
    · simp only [link,update_of_ne hk] at ha
      exact .inr ha
  refine ⟨h.apart.link fun hlt hb => ?_,fun k hk a ha => ?_,fun k hk a ha hend hup => ?_⟩
  · -- the buddy would be the lower half, and was left alone
    have hbelow := h.below order hle _ hb
    rw [buddyOf_eq hal] at hb hbelow
    rw [Nat.mul_div_cancel_left _ (by decide)] at hbelow
    rcases Dyadic.buddy_cases hal.dyadic with ⟨-,hq⟩ | ⟨hge,hd,hq⟩
    · omega
    have hl := h.last order hlt _ hb (by
      rw [Nat.mul_div_cancel_left _ (by decide)]
      omega) (by
      rw [hq]
      exact aligned_iff.mpr hd)
    omega
  · rcases hmem k a ha with ⟨rfl,rfl⟩ | ha
    · exact le_rfl
    have hb := h.below k hk a ha
    omega
  rcases hmem k a ha with ⟨rfl,rfl⟩ | ha
  · have hn := hmax hk
    by_contra hge
    exact hn (by omega) hup
  · have hb := h.below k (by omega) a ha
    omega

theorem fill_noBuddies {n addr remaining free : Nat} (haddr : pageSize ∣ addr)
    (h : Filled f (addr/pageSize) remaining) : NoBuddies (fill n addr remaining f free).1 := by
  induction n generalizing addr remaining f free with
  | zero => exact h.apart
  | succ n ih =>
    by_cases hr : remaining = 0
    · simp only [fill,hr,if_true]
      exact h.apart
    simp only [fill,hr,if_false]
    have hpos := Nat.pos_of_ne_zero hr
    refine ih (Nat.dvd_add haddr (Dvd.intro_left _ rfl)) ?_
    rw [Nat.mul_comm,page_add]
    exact h.step haddr hpos

theorem init_noBuddies {base : Nat} (hb : pageSize ∣ base) (total : Nat) :
    NoBuddies (init base total).freeLists := by
  refine fill_noBuddies hb ⟨?_,?_,?_⟩ <;> simp [NoBuddies]

theorem run_noBuddies {base : Nat} (hb : pageSize ∣ base) (total : Nat) (es : List Event) :
    NoBuddies ((machine base total).run es).buddy.freeLists := by
  refine (machine base total).run_invariant (I := fun w => NoBuddies w.buddy.freeLists)
    (init_noBuddies hb total) (fun w e h => ?_) es
  cases e with
  | alloc order => exact h.alloc order
  | free addr order => exact h.free addr order

def FreeAt (f : Nat → List Nat) (p k : Nat) : Prop := k ≤ maxOrder ∧ pageSize*p ∈ f k

section
variable {base total : Nat} {b : Buddy} {live : List (Nat × Nat)}

theorem mem_freeBlocks {f : Nat → List Nat} {a k : Nat} :
    (a,k) ∈ freeBlocks f ↔ k ≤ maxOrder ∧ a ∈ f k := by
  simp only [freeBlocks,mem_flatMap,mem_range,Nat.lt_succ_iff]
  simp

section
variable (h : Partition base total b live)
include h

theorem Partition.coalesced (hn : NoBuddies b.freeLists) :
    Dyadic.Coalesced maxOrder (FreeAt b.freeLists) := by
  have hal : ∀ p k, FreeAt b.freeLists p k → Aligned (pageSize*p) k :=
    fun p k hp => h.aligned k hp.1 _ hp.2
  have hpages : ∀ {x p k : Nat}, Dyadic.In x p k → x ∈ pagesOf (pageSize*p) k := by
    intro x p k hx
    rwa [mem_pagesOf,Nat.mul_div_cancel_left _ (by decide)]
  refine ⟨fun p k hp => aligned_iff.mp (hal p k hp),fun p k hp => hp.1,?_,?_⟩
  · intro x p j q k hp hq hxp hxq
    have hnd := (nodup_append.mp h.nodup).1
    rw [← freeBlocks_pages] at hnd
    have heq := flatMap_owner hnd (mem_freeBlocks.mpr hp) (mem_freeBlocks.mpr hq) (hpages hxp)
      (hpages hxq)
    simp only [Prod.mk.injEq] at heq
    exact ⟨Nat.eq_of_mul_eq_mul_left (by decide) heq.1,heq.2⟩
  intro p k hk hp hbud
  have hb := buddyOf_eq (hal p k hp)
  rw [Nat.mul_div_cancel_left _ (by decide)] at hb
  exact hn k hk _ hp.2 (hb ▸ hbud.2)

theorem Partition.covers_iff (x : Nat) :
    Dyadic.Covers (FreeAt b.freeLists) x ↔ x ∈ freePagesOf b.freeLists := by
  rw [mem_freePagesOf]
  constructor
  · rintro ⟨p,k,⟨hk,hp⟩,hx⟩
    refine ⟨k,hk,_,hp,?_⟩
    rwa [mem_pagesOf,Nat.mul_div_cancel_left _ (by decide)]
  rintro ⟨k,hk,a,ha,hx⟩
  refine ⟨a/pageSize,k,⟨hk,?_⟩,mem_pagesOf.mp hx⟩
  rwa [(h.aligned k hk a ha).page]

theorem Partition.alloc_zero (hn : NoBuddies b.freeLists) (hb : pageSize ∣ base) (hpos : 0 < base)
    (order : Nat) :
    (b.alloc order).1 = 0 ↔ maxOrder < order ∨
      ¬ ∃ a, Aligned a order ∧ ∀ x ∈ pagesOf a order, x ∈ freePagesOf b.freeLists := by
  rcases alloc_cases b order with ⟨hzero,hwhy⟩ | ⟨current,addr,rest,hoc,hc,-,hl,hr⟩
  · rw [hzero]
    refine ⟨fun _ => ?_,fun _ => rfl⟩
    by_cases horder : maxOrder < order
    · exact .inl horder
    refine .inr ?_
    rintro ⟨a,ha,hfree⟩
    have hempty := hwhy.resolve_left horder
    obtain ⟨p,j,hj,hp,-⟩ := (h.coalesced hn).exists_block (by omega) ha.dyadic fun x hx =>
      (h.covers_iff x).mpr (hfree x (mem_pagesOf.mpr hx))
    have hnil := hp.2
    rw [hempty j hj hp.1] at hnil
    simp at hnil
  have hmem : addr ∈ b.freeLists current := by simp [hl]
  have hin := h.free_inside hb hc hmem
  have hal := h.aligned current hc addr hmem
  rw [hr]
  refine ⟨fun h0 => absurd h0 (by simp only; omega),?_⟩
  rintro (hgt | hnone)
  · omega
  refine absurd ⟨addr,?_,fun x hx => mem_freePagesOf.mpr ⟨current,hc,addr,hmem,?_⟩⟩ hnone
  · exact Nat.dvd_trans (Nat.mul_dvd_mul_left _ (Nat.pow_dvd_pow 2 hoc)) hal
  have hpow := Nat.pow_le_pow_right (n := 2) (by decide) hoc
  obtain ⟨h₁,h₂⟩ := mem_pagesOf.mp hx
  exact mem_pagesOf.mpr ⟨h₁,by omega⟩

end

/-- The free blocks are determined by the pages that are free. -/
theorem Partition.same_blocks (h : Partition base total b []) (hn : NoBuddies b.freeLists)
    {c : Buddy} (h' : Partition base total c []) (hn' : NoBuddies c.freeLists) {k : Nat}
    (hk : k ≤ maxOrder) {a : Nat} (ha : a ∈ b.freeLists k) : a ∈ c.freeLists k := by
  have hcov : ∀ x, Dyadic.Covers (FreeAt b.freeLists) x ↔ Dyadic.Covers (FreeAt c.freeLists) x := by
    intro x
    have hb := h.pages.mem_iff (a := x)
    have hc := h'.pages.mem_iff (a := x)
    simp only [livePagesOf,flatMap_nil,append_nil] at hb hc
    rw [h.covers_iff,h'.covers_iff,hb,hc]
  have hpage := (h.aligned k hk a ha).page
  have hat : FreeAt b.freeLists (a/pageSize) k := ⟨hk,by rwa [hpage]⟩
  have hc := ((h.coalesced hn).unique (h'.coalesced hn') hcov hat).2
  rwa [hpage] at hc

end
end Buddy

/-- In every reachable state no two buddies are free, a request fails only when no aligned
run of its size is free, and when nothing is held the free lists hold the blocks they held
at first. -/
theorem buddy_coalescing (base total : Nat) (hb : pageSize ∣ base) (hpos : 0 < base)
    (es : List Buddy.Event)
    (hok : (machine base total).Along Buddy.World.Valid (machine base total).initial es) :
    let w := (machine base total).run es
    (∀ k < maxOrder, ∀ a ∈ w.buddy.freeLists k, buddyOf a k ∉ w.buddy.freeLists k) ∧
    (∀ order, (w.buddy.alloc order).1 = 0 ↔ maxOrder < order ∨ ¬ ∃ a, pageSize*2^order ∣ a ∧
        ∀ x ∈ pagesOf a order, x ∈ freePagesOf w.buddy.freeLists) ∧
    (w.live = [] → ∀ k ≤ maxOrder, ∀ a,
      a ∈ w.buddy.freeLists k ↔ a ∈ (init base total).freeLists k) := by
  intro w
  have h : Buddy.Partition base total w.buddy w.live := run_partition hb hpos es hok
  have hn : Buddy.NoBuddies w.buddy.freeLists := run_noBuddies hb total es
  refine ⟨hn,h.alloc_zero hn hb hpos,fun hlive k hk a => ?_⟩
  rw [hlive] at h
  have h₀ := Buddy.Partition.init hb total
  have hn₀ := init_noBuddies hb total
  exact ⟨h.same_blocks hn h₀ hn₀ hk,h₀.same_blocks hn₀ h hn hk⟩

namespace Buddy

def allReturned : List Event := [.alloc 0,.alloc 1,.free 0x4000 1,.free 0x3000 0]

end Buddy

theorem buddy_coalescing_allReturned : ((machine 0x3000 5).run allReturned).live = [] ∧
    ∀ k ≤ maxOrder, ∀ a, a ∈ ((machine 0x3000 5).run allReturned).buddy.freeLists k ↔
      a ∈ (init 0x3000 5).freeLists k := by
  have hlive : ((machine 0x3000 5).run allReturned).live = [] := by decide +kernel
  exact ⟨hlive,(buddy_coalescing 0x3000 5 (by decide) (by decide) allReturned
    (by decide +kernel)).2.2 hlive⟩

end Rucux.Memory
