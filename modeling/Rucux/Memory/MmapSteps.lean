import Rucux.Memory.MmapShape

namespace Rucux.Memory
open Lib VmaManager Function List Option Reservation PageTable

namespace Mm
variable {n : Nat} {L : UserLayout} {s s' : Mm n} {t : Fin n} {c : Call} {g : Nat → Prop}

def Quiet (g : Nat → Prop) (s s' : Mm n) : Prop :=
  ∀ a w', s'.vmas.mapping a = some w' → s'.sealed a = true → has w'.prot protWrite = true →
    s.sealed a = true ∧ ∃ w, s.vmas.mapping a = some w ∧ (w.prot = w'.prot ∨ g a)

def Leads (g : Nat → Prop) (s : Mm n) (o : Option (Mm n)) : Prop :=
  ∃ s', o = some s' ∧ s'.Sound ∧ Quiet g s s'

theorem quiet_of_eq (hv : s'.vmas = s.vmas) (hs : s'.sealed = s.sealed) : Quiet g s s' := by
  intro a w hw ha _
  rw [hv] at hw
  rw [hs] at ha
  exact ⟨ha,w,hw,.inl rfl⟩

theorem leads_of_eq (h : s'.Sound) (hv : s'.vmas = s.vmas) (hs : s'.sealed = s.sealed) :
    Leads g s (some s') :=
  ⟨s',rfl,h,quiet_of_eq hv hs⟩

section
variable (h : s.Sound)
include h

theorem Sound.finish (hheld : (s.calls t).held = []) (result : Int) :
    (s.finish t result).Sound := h.setCall hheld (.inr rfl) trivial

theorem Sound.leads_finish (hheld : (s.calls t).held = []) (result : Int) :
    Leads g s (some (s.finish t result)) := leads_of_eq (h.finish hheld result) rfl rfl

theorem Sound.leads_setCall (hheld : (s.calls t).held = c.held)
    (hpend : c.pending = (s.calls t).pending ∨ c.pending = none) (hok : c.Ok s.supplied) :
    Leads g s (some (s.setCall t c)) := leads_of_eq (h.setCall hheld hpend hok) rfl rfl

theorem Sound.takeFrame {x : Nat} (hx : s.Spare x) (h0 : x ≠ 0) (hheld : (s.calls t).held = [])
    (hc : c.held = [x]) (hpend : c.pending = (s.calls t).pending) (hok : c.Ok s.supplied) :
    ((s.take x).setCall t c).Sound where
  view := h.view
  frames := by
    obtain hx | ⟨ha,hout,hsup,hl⟩ := hx
    · exact absurd hx h0
    simp only [Mm.setCall,Mm.take,held_update,hc]
    exact h.frames.take hheld h0 ha hout hsup hl
  guarded := h.guarded
  pending := h.pending.same hpend
  calls := ok_update h.calls hok
  next := h.next

theorem Sound.giveBack {x : Nat} (hheld : (s.calls t).held = [x]) (hc : c.held = [])
    (hpend : c.pending = (s.calls t).pending) (hok : c.Ok s.supplied) :
    Leads g s ((s.freePage x).map fun s => s.setCall t c) := by
  have hfree : Freeable s.pages s.out s.supplied x := h.frames.freeable hheld
  rw [freePage_eq hfree]
  refine leads_of_eq ⟨h.view,?_,h.guarded,h.pending.same hpend,ok_update h.calls hok,h.next⟩ rfl rfl
  simp only [Mm.setCall,held_update,hc]
  exact h.frames.giveBack hheld

theorem Sound.ordered : vmaExtent.Ordered s.vmas.records := h.view.ordered

theorem Sound.remapped {m' : VmaManager} (hview : View m' m'.records)
    (hback : ∀ a w', m'.mapping a = some w' → ∃ w, s.vmas.mapping a = some w ∧ w.prot = w'.prot ∧
      has w'.flags vmaOwnsFrames = has w.flags vmaOwnsFrames)
    (hleaf : ∀ k l, s.pages.leaf k = some l → m'.mapping (k*pageSize) = none → s.vmas.mapping (k*pageSize) = none)
    (hpend : ∀ u q lo hi, (s.calls u).pending = some (q,lo,hi) → q.Held lo hi m'.records s.pages) :
    Leads g s (some { s with vmas := m' }) := by
  refine ⟨_,rfl,⟨hview,h.frames.remap fun k l hk => ?_,?_,?_,h.calls,h.next⟩,fun a w' hw hs _ => ?_⟩
  · rw [ownsPage,ownsPage]
    cases hm : m'.mapping (k*pageSize) with
    | none => rw [hleaf k l hk hm]
    | some w' =>
      obtain ⟨w,hw,-,ho⟩ := hback _ w' hm
      rw [hw]
      exact ho
  · refine h.guarded.remap (fun a w' hw => ?_) fun k l w' _ hw => ?_
    · obtain ⟨w,hw',hp,-⟩ := hback a w' hw
      rw [← hp]
      exact h.guarded.exclusive a w hw'
    · obtain ⟨w,hw',hp,-⟩ := hback _ w' hw
      exact ⟨w,hw',hp⟩
  · exact ⟨hpend,h.pending.apart⟩
  · obtain ⟨w,hw',hp,-⟩ := hback a w' hw
    exact ⟨hs,w,hw',.inl hp⟩

end

theorem pending_of_update (hc : c.pending = none) {u : Fin n} {x : Reservation × Nat × Nat}
    (hu : (update s.calls t c u).pending = some x) :
    u ≠ t ∧ (s.calls u).pending = some x := by
  by_cases hut : u = t
  · subst hut
    rw [update_self,hc] at hu
    cases hu
  · rw [update_of_ne hut] at hu
    exact ⟨hut,hu⟩

theorem rangeFits_spec {start length : Nat} (h : L.rangeFits start length = true) :
    0 < length ∧ start + length < 2^64 := by
  have hb := L.bounded
  simp only [UserLayout.rangeFits,UserLayout.userRange,Bool.and_eq_true,decide_eq_true_eq] at h
  omega

theorem mmapSource_spec {a : MmapArgs} {aligned : Nat} {src : Source} (start pages : Nat)
    (h : mmapSource a aligned = .ok src) :
    let p : Reservation := ⟨start,pages,a.length.toNat,a.prot,a.flags,a.fd,src⟩
    p.source.owns = !p.fileMap ∧ (p.readOnly = true → has p.prot protWrite = false) := by
  unfold mmapSource at h
  simp only [fileMap,anonymous,readOnly]
  cases hanon : has a.flags mapAnonymous with
  | true =>
    rw [if_pos hanon] at h
    obtain rfl := Except.ok.inj h
    simp
  | false =>
    rw [if_neg (by simp [hanon])] at h
    split at h
    · cases h
    split at h
    · cases h
    split at h
    · cases h
    rename_i d _
    dsimp only at h
    split at h
    · cases h
    rename_i hacc
    have hwrite : a.flags &&& (mapShared ||| mapPrivate) = mapShared → d.flags &&& 3 ≠ 2 →
        has a.prot protWrite = false := by
      intro h1 h2
      by_contra h3
      refine hacc ?_
      simp only [Bool.or_eq_true,Bool.and_eq_true,decide_eq_true_eq]
      exact .inr ⟨⟨h1,Bool.eq_true_of_not_eq_false h3⟩,h2⟩
    split at h
    · cases h
    split at h
    · cases h
    split at h
    · rename_i hm
      obtain rfl := Except.ok.inj h
      simpa [hm] using hwrite
    rename_i hm
    split at h
    · cases h
    obtain rfl := Except.ok.inj h
    simpa [hm] using hwrite

variable {p : Reservation}

section
variable (h : s.Sound) {r : Int} (hidle : s.calls t = .idle r) {new : Nat} (hfresh : s.Fresh new)
include h hidle hfresh

theorem Sound.reserve (hnext : has p.flags mapFixed = false → p.start = s.nextMmap)
    (howns : p.source.owns = !p.fileMap) (hmark : has p.vflags vmaOwnsFrames = p.source.owns)
    (hprot : writeAndExec p.prot = false) (hread : p.readOnly = true → has p.prot protWrite = false) :
    Leads g s (s.reserve L t p new) := by
  have hheld : (s.calls t).held = [] := by rw [hidle]; rfl
  unfold Mm.reserve
  by_cases h12 : (!has p.flags mapFixed && !L.rangeFits p.start (p.pages*pageSize)) = true
  · rw [if_pos h12]
    exact h.leads_finish hheld _
  rw [if_neg h12]
  by_cases h22 : (has p.flags mapFixed && (p.start % pageSize ≠ 0 ||
      !L.rangeFits p.start (p.pages*pageSize))) = true
  · rw [if_pos h22]
    exact h.leads_finish hheld _
  rw [if_neg h22]
  have hal : p.start % pageSize = 0 ∧ L.rangeFits p.start (p.pages*pageSize) = true := by
    cases hfix : has p.flags mapFixed with
    | false =>
      rw [hnext hfix]
      rw [hfix,hnext hfix] at h12
      exact ⟨h.next,by simpa using h12⟩
    | true => simpa [hfix] using h22
  obtain ⟨halign,hfits⟩ := hal
  obtain ⟨hpos,hlimit⟩ := rangeFits_spec hfits
  obtain ⟨code,h1,hvacant⟩ := occupied_spec h.view p.pages p.start
  simp only [h1,bind_eq_bind,bind_some]
  by_cases h0 : code = 0
  swap
  · rw [if_pos h0]
    exact h.leads_finish hheld _
  rw [if_neg (by simpa using h0)]
  have hnew : new ∉ s.vmas.records.map (·.1) := fun hm => hfresh (h.view.mem_nodes.mpr hm)
  obtain ⟨b,m',_,h2,-,⟨rfl,rfl,-⟩ | ⟨rfl,hz,-,hno,-,xs,ys,hrs,hview⟩⟩ := insert_spec (v := p.vma) h.view hnew
  · simp only [h2,bind_some]
    exact h.leads_finish hheld _
  simp only [h2,bind_some,if_neg hz]
  -- no leaf lies in the new range, so only the mapping of bare addresses changes
  have hbare : ∀ k l, s.pages.leaf k = some l → ¬(p.start ≤ k*pageSize ∧ k*pageSize < p.stop) := by
    rintro k l hk ⟨h3,h4⟩
    obtain ⟨i,hi,heq⟩ := exists_page halign (Nat.mul_mod_left k pageSize) h3 h4
    have hnone := getPhys_eq_zero.mp (hvacant h0 i hi).2
    rw [← heq,Nat.mul_div_cancel k (by decide),hk] at hnone
    cases hnone
  have hmap : ∀ a, m'.mapping a =
      if p.start ≤ a ∧ a < p.stop then some (p.vma.mapping a) else s.vmas.mapping a := by
    intro a
    rw [VmaManager.mapping,hview.records]
    refine (content_insert hview.ordered a).trans ?_
    rw [← hrs]
    rfl
  have hrec : ∀ x ∈ s.vmas.records, x ∈ m'.records := by
    intro x hx
    rw [hview.records]
    rw [hrs] at hx
    rcases mem_append.mp hx with hx | hx <;> simp [hx]
  have hmem : (b,p.vma) ∈ m'.records := by rw [hview.records]; simp
  have hsound : ((s.reserved p m').setCall t (.populating p 0)).Sound := by
    refine ⟨?_,?_,?_,?_,ok_update h.calls trivial,?_⟩
    · have hv := hview
      rw [← hview.records] at hv
      exact hv
    · simp only [Mm.setCall,Mm.reserved,held_update]
      refine (h.frames.remap fun k l hk => ?_).keep hheld
      rw [ownsPage,ownsPage,hmap,if_neg (hbare k l hk)]
    · refine h.guarded.remap (fun a w hw => ?_) fun k l w hk hw => ?_
      · simp only [Mm.setCall,Mm.reserved,hmap] at hw
        split at hw
        · obtain rfl := some.inj hw
          exact hprot
        · exact h.guarded.exclusive a w hw
      · simp only [Mm.setCall,Mm.reserved,hmap,if_neg (hbare k l hk)] at hw
        exact ⟨w,hw,rfl⟩
    · refine h.pending.update (fun u _ q lo hi hq => ?_) fun q lo hi hq => ?_
      · exact (h.pending.holds u q lo hi hq).mono (fun a ha => hrec _ ha) fun k l hk _ _ => ⟨l,hk⟩
      obtain ⟨rfl,rfl,rfl⟩ : p = q ∧ 0 = lo ∧ 0 = hi := by simpa [Call.pending] using hq
      refine ⟨⟨halign,hlimit,Nat.zero_le _,hmark,howns,⟨b,hmem⟩,?_⟩,fun u _ q lo hi hq => ?_⟩
      · exact fun k l hk h3 h4 => absurd ⟨h3,h4⟩ (hbare k l hk)
      obtain ⟨a,ha⟩ := (h.pending.holds u q lo hi hq).record
      have hnm := hno _ ha
      simp only [Meets,vma] at hnm
      simp only [Reservation.Apart]
      omega
    show (if has p.flags mapFixed then s.nextMmap else p.stop) % pageSize = 0
    split
    · exact h.next
    · exact add_pages_mod halign
  refine ⟨_,rfl,hsound,fun a w hw hs _ => ?_⟩
  simp only [Mm.setCall,Mm.reserved,hmap] at hw hs
  by_cases ha : p.start ≤ a ∧ a < p.stop
  · rw [if_pos ha] at hw hs
    obtain rfl := some.inj hw
    simp_all [Reservation.vma,Vma.mapping]
  · rw [if_neg ha] at hw hs
    exact ⟨hs,w,hw,.inl rfl⟩

theorem Sound.sysMmap {a : MmapArgs} : Leads g s (s.sysMmap L t a new) := by
  have hheld : (s.calls t).held = [] := by rw [hidle]; rfl
  unfold Mm.sysMmap
  by_cases hc : (!mmapCheck L a) = true
  · rw [if_pos hc]
    exact h.leads_finish hheld _
  rw [if_neg hc]
  dsimp only
  cases hsrc : mmapSource a (pageCount a.length.toNat*pageSize) with
  | error e => exact h.leads_finish hheld e
  | ok src =>
    have hcheck : mmapCheck L a = true := by simpa using hc
    simp only [mmapCheck,Bool.and_eq_true,decide_eq_true_eq,Bool.not_eq_true'] at hcheck
    obtain ⟨⟨⟨-,hwx⟩,-⟩,hflags⟩ := hcheck
    obtain ⟨howns,hread⟩ := mmapSource_spec
      (if has a.flags mapFixed then a.addr.toNat else s.nextMmap) (pageCount a.length.toNat) hsrc
    refine h.reserve hidle hfresh (fun hfix => by simp [hfix]) howns ?_ hwx hread
    have hplain : has a.flags vmaOwnsFrames = false := has_eq_false_of_masked hflags (by decide)
    rw [vflags,has_or_of_disjoint (by decide)]
    cases src.owns with
    | true => exact has_or_self (by decide)
    | false => exact hplain

end

section
variable (h : s.Sound) {i : Nat} (ht : s.calls t = .populating p i)
include h ht

theorem Sound.publish : Leads g s (s.publish t p) := by
  have hheld : (s.calls t).held = [] := by rw [ht]; rfl
  have hpend := h.pending.holds t p 0 i (by rw [ht]; rfl)
  obtain ⟨b,h1,⟨rfl,hno⟩ | ⟨xs,v,ys,hrs,hv,hv'⟩⟩ := h.view.find p.start
  · have heq : s.publish t p = some (s.finish t p.start) := by simp [Mm.publish,h1]
    rw [heq]
    exact h.leads_finish hheld _
  have hview := h.view
  rw [hrs] at hview
  have hmem : (b,v) ∈ xs ++ (b,v) :: ys := by simp
  have hb : b ≠ 0 := hview.ne_zero hmem
  let v' : Vma := { v with flags := v.flags &&& ~~~vmaPopulating }
  have hord : vmaExtent.Ordered (xs ++ (b,v') :: ys) := by
    have ho := Extent.ordered_middle.mp hview.ordered
    exact Extent.ordered_middle.mpr ho
  have hview' : View (s.vmas.set b v') (xs ++ (b,v') :: ys) := hview.change hord
  have heq : s.publish t p = some ({ s with vmas := s.vmas.set b v' }.finish t p.start) := by
    simp [Mm.publish,h1,hb,hview.regions (b,v) hmem,v']
  -- the mapping keeps all but the mark of population
  have hmap : ∀ a, (s.vmas.set b v').mapping a = s.vmas.mapping a ∨ ∃ w, s.vmas.mapping a = some w ∧
        (s.vmas.set b v').mapping a = some { w with flags := w.flags &&& ~~~vmaPopulating } := by
    intro a
    rw [VmaManager.mapping,hview'.records,VmaManager.mapping,hrs]
    by_cases ha : v.start ≤ a ∧ a < v.stop
    · exact .inr ⟨v.mapping a,hview.ordered.content_of_mem hmem ha,
        hord.content_of_mem (r := (b,v')) (by simp) ha⟩
    left
    show content _ a = content _ a
    rw [content_insert hord,content_insert hview.ordered,if_neg ha]
    exact (if_neg ha).symm
  have hother : ∀ u ≠ t, ∀ q lo hi, (s.calls u).pending = some (q,lo,hi) →
      q.Held lo hi (s.vmas.set b v').records s.pages := by
    intro u hu q lo hi hq
    refine (h.pending.holds u q lo hi hq).mono (fun a ha => ?_) fun k l hk _ _ => ⟨l,hk⟩
    rw [hview'.records]
    rw [hrs] at ha
    rcases mem_cons.mp (perm_middle.mem_iff.mp ha) with hab | hab
    · -- the record at the start of `p` is no other call's
      have hqv : q.vma = v := (Prod.mk.inj hab).2
      have hap := h.pending.apart t u p q 0 i lo hi (Ne.symm hu) (by rw [ht]; rfl) hq
      have h4 : q.start = v.start ∧ q.stop = v.stop := by rw [← hqv]; exact ⟨rfl,rfl⟩
      obtain ⟨_,hrec⟩ := hpend.record
      have h5 : p.start < p.stop := h.view.inhabited hrec
      rcases hap with hap | hap <;> omega
    · exact perm_middle.mem_iff.mpr (mem_cons_of_mem _ hab)
  rw [heq]
  refine (h.finish hheld p.start).remapped ?_ (fun a w' hw => ?_) (fun k l _ hk => ?_)
    fun u q lo hi hq => ?_
  · have hv2 := hview'
    rw [← hview'.records] at hv2
    exact hv2
  · rcases hmap a with h2 | ⟨w0,h2,h3⟩
    · exact ⟨w',h2.symm.trans hw,rfl,rfl⟩
    obtain rfl := some.inj (h3.symm.trans hw)
    exact ⟨w0,h2,rfl,has_clear (by decide)⟩
  · rcases hmap (k*pageSize) with h2 | ⟨w0,-,h3⟩
    · exact h2.symm.trans hk
    rw [h3] at hk
    cases hk
  · obtain ⟨hut,hq⟩ := pending_of_update rfl hq
    exact hother u hut q lo hi hq

theorem Sound.populate {ch : Choice} (hoff : s.Offers ch.frame (s.calls t)) :
    Leads g s (s.populate t p i ch) := by
  have hheld : (s.calls t).held = [] := by rw [ht]; rfl
  have hp : (s.calls t).pending = some (p,0,i) := by rw [ht]; rfl
  have hpend := h.pending.holds t p 0 i hp
  have hfail : ∀ e, Leads g s (some (s.setCall t (.unwinding p i 0 e))) := fun e =>
    h.leads_setCall hheld (.inl hp.symm) trivial
  rw [ht] at hoff
  unfold Mm.populate
  split
  · exact hfail _
  split
  swap
  · exact h.publish ht
  rename_i hi
  split
  · exact hfail _
  cases hmap : p.fileMap with
  | true =>
    simp only [Offers,hmap,if_true] at hoff
    rw [if_pos rfl]
    split
    · exact hfail _
    rename_i h0
    have hs : ({ s with supplied := pageBase ch.frame :: s.supplied } : Mm n).Sound :=
      ⟨h.view,h.frames.supply hoff,h.guarded,h.pending,
        fun u => (h.calls u).mono (subset_cons_self _ _),h.next⟩
    have howns : p.source.owns = false := by rw [hpend.ownsIff,hmap]; rfl
    refine leads_of_eq (hs.setCall (c := .installing p i ch.frame) ?_ (.inl hp.symm) ?_) rfl rfl
    · show (s.calls t).held = if p.source.owns then [ch.frame] else []
      rw [hheld,howns]
      rfl
    · exact ⟨hi,fun _ => ⟨h0,by simp⟩⟩
  | false =>
    simp only [Offers,hmap,Bool.false_eq_true,if_false] at hoff
    rw [if_neg (by simp)]
    split
    · exact hfail _
    rename_i h0
    have howns : p.source.owns = true := by rw [hpend.ownsIff,hmap]; rfl
    dsimp only
    split
    · exact leads_of_eq (h.takeFrame hoff h0 hheld rfl hp.symm trivial) rfl rfl
    refine leads_of_eq (h.takeFrame hoff h0 hheld ?_ hp.symm ⟨hi,by simp [howns]⟩) rfl rfl
    simp [Call.held,howns]

end

section
variable (h : s.Sound) {i phys : Nat} (ht : s.calls t = .installing p i phys)
include h ht

theorem install_page : p.start ≤ p.page i ∧ p.page i < p.stop ∧ p.page i % pageSize = 0 ∧
      s.pages.leaf (p.page i/pageSize) = none := by
  have hpend := h.pending.holds t p 0 i (by rw [ht]; rfl)
  have hok := h.calls t
  rw [ht] at hok
  have hi : i < p.pages := hok.1
  have hmod := hpend.page_mod i
  have hin : p.start ≤ p.page i ∧ p.page i < p.stop := by
    simp only [page,stop,pageSize]
    omega
  refine ⟨hin.1,hin.2,hmod,?_⟩
  cases hl : s.pages.leaf (p.page i/pageSize) with
  | none => rfl
  | some l =>
    have h1 := hpend.leaves _ l hl
    rw [page_mul_div hmod] at h1
    exact absurd (h1 hin.1 hin.2).2 (Nat.lt_irrefl _)

theorem Sound.install_cases (ch : Choice) : ch.tables = false ∧ s.install t p i phys ch =
        some (s.setCall t (if p.fileMap then .unwinding p i 0 (-12) else .releasing p i 0 phys (-12))) ∨
      ∃ l : Leaf, l.phys = phys ∧ l.flags = flagsForProt p.prot ∧ s.install t p i phys ch =
        some ({ s with pages := AList.insert (p.page i/pageSize) l s.pages }.setCall t (.populating p (i+1))) := by
  have hpend := h.pending.holds t p 0 i (by rw [ht]; rfl)
  have hok := h.calls t
  rw [ht] at hok
  obtain ⟨-,hgiven⟩ := hok
  obtain ⟨hin1,hin2,-,hnone⟩ := install_page h ht
  obtain ⟨r,h1,h2⟩ := h.view.regionAt (p.page i)
  have hc := hpend.content h.ordered hin1 hin2
  rw [h2] at hc
  have hsome : r.isNone = false := by cases r <;> simp at hc ⊢
  have h0 : s.pages.getPhys (p.page i) = 0 := getPhys_eq_zero.mpr hnone
  have hphys : phys ≠ 0 := by
    cases howns : p.source.owns with
    | false => exact (hgiven howns).1
    | true =>
      have hheld : (s.calls t).held = [phys] := by rw [ht,Call.held,if_pos howns]
      exact (h.frames.aligned phys (h.frames.custody.mem_of_held (t := t) (by simp [hheld]))).1
  rcases map_spec s.pages (p.page i) (flagsForProt p.prot) ch.tables hphys with ⟨htables,hmap⟩ | ⟨-,hmap⟩
  · refine .inl ⟨htables,?_⟩
    simp only [install,installPage,h1,bind_eq_bind,bind_some,hsome,h0,hmap]
    cases p.fileMap <;> simp
  refine .inr ⟨⟨phys,flagsForProt p.prot,hphys⟩,rfl,rfl,?_⟩
  have hleaf : leaf (s.pages.map (p.page i) phys (flagsForProt p.prot) ch.tables)
      (p.page i/pageSize) = some ⟨phys,flagsForProt p.prot,hphys⟩ := by
    rw [hmap,leaf_insert,if_pos rfl]
  rw [← hmap]
  simp only [install,installPage,h1,bind_eq_bind,bind_some,hsome,h0,
    getPhys_of_leaf hleaf,hphys]
  simp

theorem Sound.install (ch : Choice) : Leads g s (s.install t p i phys ch) := by
  have hp : (s.calls t).pending = some (p,0,i) := by rw [ht]; rfl
  have hpend := h.pending.holds t p 0 i hp
  have hok := h.calls t
  rw [ht] at hok
  obtain ⟨hi,hgiven⟩ := hok
  obtain ⟨hin1,hin2,hmod,hnone⟩ := install_page h ht
  have hheld : (s.calls t).held = if p.source.owns then [phys] else [] := by rw [ht]; rfl
  have hown : ownsPage s.vmas.mapping (p.page i/pageSize) = p.source.owns :=
    hpend.ownsPage_eq h.ordered (by rwa [page_mul_div hmod]) (by rwa [page_mul_div hmod])
  rcases h.install_cases ht ch with ⟨-,heq⟩ | ⟨l,rfl,hflags,heq⟩
  · have hiff := hpend.ownsIff
    rw [heq]
    cases hfm : p.fileMap with
    | true =>
      rw [hfm] at hiff
      exact h.leads_setCall (by rw [hheld,hiff]; rfl) (.inl hp.symm) trivial
    | false =>
      rw [hfm] at hiff
      exact h.leads_setCall (by rw [hheld,hiff]; rfl) (.inl hp.symm) trivial
  rw [heq]
  refine leads_of_eq ⟨h.view,?_,?_,?_,ok_update h.calls trivial,h.next⟩ rfl rfl
  · simp only [Mm.setCall,held_update]
    cases howns : p.source.owns with
    | true =>
      rw [howns] at hheld hown
      have hal := (h.frames.aligned l.phys (h.frames.custody.mem_of_held (t := t) (by simp [hheld]))).2
      exact h.frames.install hheld hnone hown (pageBase_of_aligned hal)
    | false =>
      rw [howns] at hheld hown
      exact (h.frames.installForeign (l := l) hnone hown (h.frames.apart _ (hgiven howns).2)).keep hheld
  · refine h.guarded.insert fun w hw => ?_
    rw [page_mul_div hmod] at hw
    obtain rfl := some.inj ((hpend.content h.ordered hin1 hin2).symm.trans hw)
    exact hflags
  refine h.pending.advance hp rfl ?_ fun u hu q lo hi hq => ?_
  · refine ⟨hpend.aligned,hpend.limit,hi,hpend.ownsMark,hpend.ownsIff,hpend.record,?_⟩
    intro k l' hk h3 h4
    have hlow : p.page 0 ≤ k*pageSize := by simpa [page] using h3
    refine ⟨hlow,?_⟩
    have hnext : p.page i < p.page (i+1) := by
      simp only [page,pageSize]
      omega
    rcases leaf_of_insert hk with ⟨hki,-⟩ | ⟨-,hk⟩
    · rw [hki,page_mul_div hmod]
      exact hnext
    · exact Nat.lt_trans (hpend.leaves k l' hk h3 h4).2 hnext
  refine (h.pending.holds u q lo hi hq).mono (fun a ha => ha) fun k l' hk h3 h4 => ?_
  rcases leaf_of_insert hk with ⟨hki,-⟩ | ⟨-,hk⟩
  · rw [hki,page_mul_div hmod] at h3 h4
    have hap := h.pending.apart t u p q 0 i lo hi (Ne.symm hu) hp hq
    rcases hap with hap | hap <;> omega
  · exact ⟨l',hk⟩

end

theorem remove_effect {m m' : VmaManager} {start length new : Nat} {b : Bool}
    {rs' : List (Nat × Vma)} (hres : b = true ∧ Removed start (start+length) m.records rs' ∨
      b = false ∧ rs' = m.records ∧ (2^64 ≤ start + length ∨ new = 0 ∧
        ∃ x ∈ m.records, x.2.start < start ∧ start + length < x.2.stop))
    (hview : View m' rs') :
    Keeps start (start+length) m.records m'.records ∧
      (∀ a w, m'.mapping a = some w → m.mapping a = some w) ∧
      ∀ a, m'.mapping a = none → m.mapping a ≠ none → start ≤ a ∧ a < start + length := by
  obtain rfl := hview.records
  rcases hres with ⟨-,hrem⟩ | ⟨-,hsame,-⟩
  · have hmap : ∀ a, m'.mapping a =
        if start ≤ a ∧ a < start + length then none else m.mapping a := hrem.mapped
    refine ⟨hrem.keeps,fun a w hw => ?_,fun a hnone hne => ?_⟩
    · rw [hmap] at hw
      split at hw
      · cases hw
      · exact hw
    by_contra ha
    rw [hmap,if_neg ha] at hnone
    exact hne hnone
  have hmap : m'.mapping = m.mapping := by
    rw [VmaManager.mapping,hsame]
    rfl
  rw [hsame,hmap]
  exact ⟨fun _ hx _ => hx,fun _ _ hw => hw,fun a h1 h2 => absurd h1 h2⟩

theorem Sound.unwind (h : s.Sound) {installed i : Nat} {error : Int}
    (ht : s.calls t = .unwinding p installed i error) {ch : Choice} (hfresh : s.Fresh ch.new) :
    Leads g s (s.unwind t p installed i error ch) := by
  have hheld : (s.calls t).held = [] := by rw [ht]; rfl
  have hp : (s.calls t).pending = some (p,i,installed) := by rw [ht]; rfl
  have hpend := h.pending.holds t p i installed hp
  unfold Mm.unwind
  by_cases hi : i < installed
  · rw [if_pos hi]
    obtain ⟨hin1,hin2⟩ := hpend.page_lt hi
    have hmod := hpend.page_mod i
    have hown : ownsPage s.vmas.mapping (p.page i/pageSize) = p.source.owns :=
      hpend.ownsPage_eq h.ordered (by rwa [page_mul_div hmod]) (by rwa [page_mul_div hmod])
    have hsub : ∀ k l, (s.pages.unmap (p.page i)).leaf k = some l →
        k ≠ p.page i/pageSize ∧ s.pages.leaf k = some l := fun k l => Frames.leaf_of_erase
    -- in all cases the page's leaf goes and the others stay
    have hpending : ∀ c : Call, c.pending = some (p,i+1,installed) →
        Pending s.vmas.records (s.pages.unmap (p.page i)) (update s.calls t c) := by
      intro c hc
      refine h.pending.advance hp hc ?_ fun u _ q lo hi hq => ?_
      · refine ⟨hpend.aligned,hpend.limit,hpend.within,hpend.ownsMark,hpend.ownsIff,hpend.record,?_⟩
        intro k l hk h3 h4
        obtain ⟨hne,hk'⟩ := hsub k l hk
        obtain ⟨h5,h6⟩ := hpend.leaves k l hk' h3 h4
        refine ⟨?_,h6⟩
        have h8 : p.page (i+1) = p.page i + pageSize := by
          simp only [page,Nat.add_mul]
          omega
        simp only [pageSize] at *
        omega
      · exact (h.pending.holds u q lo hi hq).mono (fun a ha => ha) fun k l hk _ _ => ⟨l,(hsub k l hk).2⟩
    have hguard : Guarded s.vmas.mapping (s.pages.unmap (p.page i)) :=
      h.guarded.sub fun k l hk => (hsub k l hk).2
    cases hl : s.pages.leaf (p.page i/pageSize) with
    | none =>
      rw [getPhys_eq_zero.mpr hl,if_neg (by simp)]
      refine leads_of_eq ⟨h.view,?_,hguard,hpending _ rfl,ok_update h.calls trivial,h.next⟩ rfl rfl
      simp only [Mm.setCall,held_update]
      rw [unmap_of_none hl]
      exact h.frames.keep hheld
    | some l =>
      rw [getPhys_of_leaf hl]
      cases howns : p.source.owns with
      | false =>
        rw [howns] at hown
        refine leads_of_eq ⟨h.view,?_,hguard,hpending _ rfl,ok_update h.calls trivial,h.next⟩ rfl rfl
        simp only [Mm.setCall,held_update]
        exact (h.frames.forget hl hown).keep hheld
      | true =>
        rw [howns] at hown
        rw [if_pos (by simp [l.present])]
        refine leads_of_eq ⟨h.view,?_,hguard,hpending _ rfl,ok_update h.calls trivial,h.next⟩ rfl rfl
        simp only [Mm.setCall,held_update]
        exact h.frames.detach hheld hl hown
  rw [if_neg hi]
  have hlimit := hpend.limit
  have hbare : ∀ k l, s.pages.leaf k = some l → ¬(p.start ≤ k*pageSize ∧ k*pageSize < p.stop) := by
    rintro k l hk ⟨h3,h4⟩
    obtain ⟨h5,h6⟩ := hpend.leaves k l hk h3 h4
    simp only [page,pageSize] at h5 h6
    omega
  have hnew : ch.new ∉ s.vmas.records.map (·.1) := fun hm => hfresh (h.view.mem_nodes.mpr hm)
  have hstop : p.stop = p.start + p.pages*pageSize := rfl
  have hstart : p.start < 2^64 := by omega
  have hlength : p.pages*pageSize < 2^64 := by omega
  obtain ⟨b,m',rs',h1,hview,hres,-⟩ := remove_spec h.view hnew hstart hlength
  obtain ⟨hkeeps,hback,hgone⟩ := remove_effect hres hview
  obtain rfl := hview.records
  simp only [h1,bind_eq_bind,bind_some]
  refine ((h.setCall (c := .resetting p error) hheld (.inr rfl) hpend.aligned).remapped hview
    (fun a w hw => ⟨w,hback a w hw,rfl,rfl⟩) (fun k l hk hm => ?_) fun u q lo hi hq => ?_)
  · by_contra hne
    exact hbare k l hk (hgone _ hm hne)
  obtain ⟨hut,hq⟩ := pending_of_update rfl hq
  refine (h.pending.holds u q lo hi hq).mono (kept hkeeps ?_) fun k l hk _ _ => ⟨l,hk⟩
  exact (h.pending.apart t u p q i installed lo hi (Ne.symm hut) hp hq).symm

theorem Sound.reset (h : s.Sound) {error : Int} (ht : s.calls t = .resetting p error) :
    Leads g s (some (s.reset t p error)) := by
  have hheld : (s.calls t).held = [] := by rw [ht]; rfl
  have hok := h.calls t
  rw [ht] at hok
  unfold Mm.reset
  split
  · have hs : ({ s with nextMmap := p.start } : Mm n).Sound :=
      ⟨h.view,h.frames,h.guarded,h.pending,h.calls,hok⟩
    exact leads_of_eq (hs.finish hheld error) rfl rfl
  · exact h.leads_finish hheld error

theorem Sound.handleFault (h : s.Sound) {r : Int} (hidle : s.calls t = .idle r) (addr : Nat)
    (write execute : Bool) : Leads g s (s.handleFault L t addr write execute) := by
  have hheld : (s.calls t).held = [] := by rw [hidle]; rfl
  obtain ⟨region,h1,-⟩ := h.view.regionAt (pageBase addr)
  simp only [Mm.handleFault,h1,bind_eq_bind,bind_some]
  cases region with
  | none => exact h.leads_finish hheld 0
  | some v =>
    dsimp only
    split
    · exact h.leads_finish hheld 0
    split
    · exact h.leads_finish hheld _
    split
    · exact h.leads_finish hheld 0
    · exact h.leads_setCall hheld (.inr rfl) (pageBase_mod addr)

section
variable (h : s.Sound) {page : Nat} {write execute : Bool}
include h

theorem Sound.faultAlloc (ht : s.calls t = .faulting page write execute) {ch : Choice}
    (hoff : s.Offers ch.frame (s.calls t)) :
    Leads g s (some (s.faultAlloc t page write execute ch)) := by
  have hheld : (s.calls t).held = [] := by rw [ht]; rfl
  have hok := h.calls t
  rw [ht] at hok hoff
  unfold Mm.faultAlloc
  split
  · exact h.leads_finish hheld 0
  rename_i h0
  exact leads_of_eq (h.takeFrame hoff h0 hheld rfl (by rw [ht]; rfl) hok) rfl rfl

theorem Sound.faultMap {frame : Nat} (ht : s.calls t = .mapping page write execute frame) (ch : Choice) :
    Leads g s (s.faultMap L t page write execute frame ch) := by
  have hheld : (s.calls t).held = [frame] := by rw [ht]; rfl
  have hmod : page % pageSize = 0 := by
    have hok := h.calls t
    rw [ht] at hok
    exact hok
  have hdiscard : ∀ b, Leads g s (some (s.setCall t (.discarding frame b))) := fun b =>
    h.leads_setCall hheld (.inr rfl) trivial
  obtain ⟨hframe,halign⟩ := h.frames.aligned frame
    (h.frames.custody.mem_of_held (t := t) (by simp [hheld]))
  obtain ⟨region,h1,h2⟩ := h.view.regionAt page
  simp only [Mm.faultMap,h1,bind_eq_bind,bind_some]
  cases region with
  | none => exact hdiscard false
  | some v =>
    dsimp only
    split
    swap
    · split
      · exact hdiscard _
      · exact hdiscard _
    rename_i hcond
    simp only [Bool.and_eq_true,Bool.not_eq_true',decide_eq_true_eq] at hcond
    obtain ⟨⟨⟨⟨-,howns⟩,hpop⟩,-⟩,h0⟩ := hcond
    have hnone := getPhys_eq_zero.mp h0
    have hcont : s.vmas.mapping (page/pageSize*pageSize) = some (v.mapping page) := by
      rw [page_mul_div hmod]
      exact h2
    have hown : ownsPage s.vmas.mapping (page/pageSize) = true := by
      rw [ownsPage,hcont]
      exact howns
    rcases map_spec s.pages page (flagsForProt v.prot) ch.tables hframe with ⟨-,hmap⟩ | ⟨-,hmap⟩
    · rw [hmap,h0]
      exact hdiscard false
    have hleaf : leaf (s.pages.map page frame (flagsForProt v.prot) ch.tables)
        (page/pageSize) = some ⟨frame,flagsForProt v.prot,hframe⟩ := by
      rw [hmap,leaf_insert,if_pos rfl]
    rw [getPhys_of_leaf hleaf,if_pos hframe,hmap]
    refine leads_of_eq ⟨h.view,?_,?_,?_,ok_update h.calls trivial,h.next⟩ rfl rfl
    · simp only [Mm.finish,Mm.setCall,held_update]
      exact h.frames.install hheld hnone hown (pageBase_of_aligned halign)
    · refine h.guarded.insert fun w hw => ?_
      obtain rfl := some.inj (hcont.symm.trans hw)
      rfl
    refine h.pending.drop rfl fun u _ q lo hi hq => ?_
    have hheldq := h.pending.holds u q lo hi hq
    refine hheldq.mono (fun a ha => ha) fun k l hk h3 h4 => ?_
    rcases leaf_of_insert hk with ⟨hkp,-⟩ | ⟨-,hk⟩
    · -- the page is not under population
      rw [hkp,page_mul_div hmod] at h3 h4
      have hc := hheldq.content h.ordered h3 h4
      rw [h2] at hc
      have hflags : v.flags = q.vflags := congrArg Mapping.flags (some.inj hc)
      rw [hflags,q.has_populating] at hpop
      cases hpop
    · exact ⟨l,hk⟩

end

end Mm
end Rucux.Memory
