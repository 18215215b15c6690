import Rucux.Memory.MmapSteps

namespace Rucux.Memory
open Lib Option VmaManager PageTable

namespace Mm
variable {n : Nat}

def sysMunmapMoves (L : UserLayout) (s : Mm n) (virt length new new' right : Nat) :
    Option (List (Move Nat)) :=
  let aligned := pageCount length*pageSize
  if length = 0 || length > L.userEnd - L.userBegin || virt % pageSize ≠ 0 then some []
  else if !L.userRange virt aligned then some []
  else do
    let busy ← populationInRange s.vmas (pageCount length) virt
    if busy then return []
    else
      let (ok,vmas) ← s.vmas.isolate virt (virt + aligned) new new'
      let ms ← s.vmas.isolateMoves virt (virt + aligned) new new'
      if !ok then return ms
      else
        let (code,s) ← unmapPages (pageCount length) virt { s with vmas := vmas }
        if code ≠ 0 then return ms
        else
          let busy ← populationInRange s.vmas (pageCount length) virt
          if busy then return ms
          else
            let ms' ← s.vmas.removeMoves virt aligned right
            return ms ++ ms'

def sysMprotectMoves (L : UserLayout) (s : Mm n) (virt length : Nat) (prot : BitVec 32)
    (new new' : Nat) : Option (List (Move Nat)) :=
  let aligned := pageCount length*pageSize
  if length = 0 || length > L.userEnd - L.userBegin || virt % pageSize ≠ 0 ||
      prot &&& ~~~7 ≠ 0 || writeAndExec prot then some []
  else if !L.userRange virt aligned then some []
  else do
    let busy ← populationInRange s.vmas (pageCount length) virt
    if busy then return []
    else
      let covered ← s.vmas.covers virt (virt + aligned)
      if !covered then return []
      else s.vmas.setProtMoves virt (virt + aligned) new new'

variable {L : UserLayout} {s s' : Mm n} {t : Fin n} {g : Nat → Prop}

def Keeping (s s' : Mm n) (ms : Option (List (Move Nat))) : Prop :=
  ∃ l, ms = some l ∧ Counts s.vmas.records l s'.vmas.records

theorem keeping_refl (s : Mm n) : Keeping s s (some []) := ⟨[],rfl,.refl _⟩

def Ends (g : Nat → Prop) (s : Mm n) (o : Option (Int × Mm n)) (ms : Option (List (Move Nat))) : Prop :=
  ∃ code s', o = some (code,s') ∧ s'.Sound ∧ Quiet g s s' ∧ s'.calls = s.calls ∧ Keeping s s' ms

theorem Quiet.refl (g : Nat → Prop) (s : Mm n) : Quiet g s s := quiet_of_eq rfl rfl

theorem Sound.ends (h : s.Sound) (code : Int) : Ends g s (some (code,s)) (some []) :=
  ⟨code,s,rfl,h,.refl g s,rfl,keeping_refl s⟩

theorem Ends.leads_finish {o : Option (Int × Mm n)} {ms : Option (List (Move Nat))} (h : Ends g s o ms) {r : Int}
    (hidle : s.calls t = .idle r) : Leads g s (o.map fun r => r.2.finish t r.1) := by
  obtain ⟨code,s1,rfl,h1,hq,hc,-⟩ := h
  have hheld : (s1.calls t).held = [] := by rw [hc,hidle]; rfl
  exact ⟨s1.finish t code,rfl,h1.finish hheld code,hq⟩

theorem userRange_spec {a size : Nat} (h : L.userRange a size = true) : a + size < 2^64 := by
  have hb := L.bounded
  simp only [UserLayout.userRange,Bool.and_eq_true,decide_eq_true_eq] at h
  omega

theorem Sound.off_range (h : s.Sound) {a k : Nat} (hk : 0 < k) (ha : a % pageSize = 0)
    (hfree : ∀ i < k, ∀ w, content s.vmas.records (a + i*pageSize) = some w →
      has w.flags vmaPopulating = false) (u : Fin n) (q : Reservation) (lo hi : Nat)
    (hq : (s.calls u).pending = some (q,lo,hi)) :
    q.stop ≤ a ∨ a + k*pageSize ≤ q.start := by
  by_contra hmeet
  have hheld := h.pending.holds u q lo hi hq
  obtain ⟨_,hrec⟩ := hheld.record
  have hlt : q.start < q.stop := h.view.inhabited hrec
  -- the first page of the overlap
  have hsize : 0 < k*pageSize := Nat.mul_pos hk (by decide)
  have hmax : max a q.start % pageSize = 0 := by
    rcases Nat.le_total a q.start with hle | hle
    · rw [Nat.max_eq_right hle,hheld.aligned]
    · rw [Nat.max_eq_left hle,ha]
  obtain ⟨i,hi',heq⟩ := exists_page (m := k) ha hmax (Nat.le_max_left _ _) (by omega)
  have hc := hheld.content h.ordered (Nat.le_max_right a q.start) (by omega)
  rw [heq] at hc
  have hpop := hfree i hi' _ hc
  rw [show (q.vma.mapping _).flags = q.vflags from rfl,q.has_populating] at hpop
  cases hpop

theorem Sound.remapped_same (h : s.Sound) {m' : VmaManager} {rs' : List (Nat × Vma)}
    (hview : View m' rs') (hmap : ∀ a, content rs' a = content s.vmas.records a) {start stop : Nat}
    (hk : Keeps start stop s.vmas.records rs')
    (hoff : ∀ u q lo hi, (s.calls u).pending = some (q,lo,hi) → q.stop ≤ start ∨ stop ≤ q.start) :
    Leads g s (some { s with vmas := m' }) := by
  obtain rfl := hview.records
  refine h.remapped hview (fun a w hw => ⟨w,(hmap a).symm.trans hw,rfl,rfl⟩)
    (fun k l _ hm => (hmap _).symm.trans hm) fun u q lo hi hq => ?_
  exact (h.pending.holds u q lo hi hq).mono (Reservation.kept hk (hoff u q lo hi hq))
    fun k l hk _ _ => ⟨l,hk⟩

theorem Leads.sound {s1 : Mm n} (h : Leads g s (some s1)) : s1.Sound ∧ Quiet g s s1 := by
  obtain ⟨s2,heq,h2,hq⟩ := h
  obtain rfl := some.inj heq
  exact ⟨h2,hq⟩

theorem Quiet.trans {s1 s2 : Mm n} (h : Quiet (fun _ => False) s s1)
    (h' : Quiet (fun _ => False) s1 s2) : Quiet g s s2 := by
  intro a w hw hs hwr
  obtain ⟨hs1,w1,hw1,hp | hp⟩ := h' a w hw hs hwr
  · obtain ⟨hs0,w0,hw0,hp0 | hp0⟩ := h a w1 hw1 hs1 (by rwa [hp])
    · exact ⟨hs0,w0,hw0,.inl (hp0.trans hp)⟩
    · exact hp0.elim
  · exact hp.elim

theorem pageCount_pos {length : Nat} (h : length ≠ 0) : 0 < pageCount length := by
  simp only [pageCount,pageSize]
  omega

theorem Sound.sysMunmap (h : s.Sound) {virt length new new' right : Nat}
    (hnew : s.Fresh new) (hnew' : s.Fresh new') (hright : s.Fresh right)
    (h1 : new' = new → new' = 0) (h2 : right = new → right = 0) (h3 : right = new' → right = 0) :
    Ends g s (s.sysMunmap L virt length new new' right) (s.sysMunmapMoves L virt length new new' right) := by
  have hnode : ∀ {a}, s.Fresh a → a ∉ s.vmas.records.map (·.1) :=
    fun ha hm => ha (h.view.mem_nodes.mpr hm)
  unfold Mm.sysMunmap sysMunmapMoves
  dsimp only
  split
  · exact h.ends _
  rename_i hargs
  split
  · exact h.ends _
  rename_i hrange
  simp only [Bool.or_eq_true,decide_eq_true_eq,not_or,Decidable.not_not] at hargs
  obtain ⟨⟨hlen,-⟩,halign⟩ := hargs
  have hpos := pageCount_pos hlen
  have hlimit := userRange_spec (L := L) (by simpa using hrange)
  obtain ⟨busy,h4,hfree⟩ := populationInRange_spec h.view (pageCount length) virt
  simp only [h4,bind_eq_bind,bind_some]
  cases busy with
  | true => exact h.ends _
  | false =>
    have hoff := h.off_range hpos halign (hfree.mp rfl)
    obtain ⟨ok,m1,rs1,h5,hview1,hcut,-,hfresh,ms,hms,hcount⟩ := isolate_spec virt
      (virt + pageCount length*pageSize) h.view (hnode hnew) (hnode hnew') h1
    obtain ⟨hs1,hq1⟩ := (h.remapped_same (g := fun _ => False) hview1 hcut.mapped hcut.keeps hoff).sound
    simp only [h5,hms,bind_some,Bool.false_eq_true,if_false]
    obtain rfl := hview1.records
    cases ok with
    | false => exact ⟨-12,_,rfl,hs1,hq1.trans (.refl _ _),rfl,ms,rfl,hcount⟩
    | true =>
      obtain ⟨code,pages,out,h6,hf,hsub,hbare⟩ :=
        unmapPages_spec hs1.view hs1.frames (pageCount length) halign
      have hs2 : ({ s with vmas := m1, pages := pages, out := out } : Mm n).Sound :=
        ⟨hs1.view,hf,hs1.guarded.sub hsub,⟨fun u q lo hi hq => (hs1.pending.holds u q lo hi hq).mono
          (fun _ ha => ha) fun k l hk _ _ => ⟨l,hsub k l hk⟩,hs1.pending.apart⟩,hs1.calls,hs1.next⟩
      have hq2 : Quiet (fun _ => False) s { s with vmas := m1, pages := pages, out := out } :=
        hq1.trans (quiet_of_eq rfl rfl)
      simp only [Bool.not_true,Bool.false_eq_true,if_false,h6,bind_some]
      by_cases h0 : code = 0
      swap
      · rw [if_pos h0,if_pos h0]
        exact ⟨code,_,rfl,hs2,hq2.trans (.refl _ _),rfl,ms,rfl,hcount⟩
      rw [if_neg (by simpa using h0),if_neg (by simpa using h0)]
      obtain ⟨busy,h7,-⟩ := populationInRange_spec hview1 (pageCount length) virt
      simp only [h7,bind_some]
      cases busy with
      | true => exact ⟨-16,_,rfl,hs2,hq2.trans (.refl _ _),rfl,ms,rfl,hcount⟩
      | false =>
        have hright1 : right ∉ m1.records.map (·.1) := by
          by_cases hz : right = 0
          · rw [hz]
            exact hview1.zero_notMem
          · exact hfresh right (hnode hright) (fun he => hz (h2 he)) (fun he => hz (h3 he))
        have hstart : virt < 2^64 := by omega
        have hlength : pageCount length*pageSize < 2^64 := by omega
        obtain ⟨ok,m2,rs2,h8,hview2,hres,ms',hms',hcount'⟩ := remove_spec hview1 hright1 hstart hlength
        obtain ⟨hkeeps,hback,hgone⟩ := remove_effect hres hview2
        obtain rfl := hview2.records
        obtain ⟨hs3,hq3⟩ := (hs2.remapped (g := fun _ => False) hview2
          (fun a w hw => ⟨w,hback a w hw,rfl,rfl⟩) (fun k l hk hm => by
            -- a page with a leaf and a region was passed by the loop
            by_contra hne
            obtain ⟨h9,h10⟩ := hgone _ hm hne
            obtain ⟨i,hi,heq⟩ := exists_page halign (Nat.mul_mod_left k pageSize) h9 h10
            refine hne (Eq.trans ?_ (hbare h0 i hi l ?_))
            · rw [heq]
              rfl
            · rw [← heq,Nat.mul_div_cancel k (by decide)]
              exact hk)
          fun u q lo hi hq => (hs2.pending.holds u q lo hi hq).mono
            (Reservation.kept hkeeps (hoff u q lo hi hq)) fun k l hk _ _ => ⟨l,hk⟩).sound
        simp only [h8,hms',bind_some,Bool.false_eq_true,if_false]
        cases ok with
        | false => exact ⟨-12,_,rfl,hs3,hq2.trans hq3,rfl,_,rfl,hcount.trans hcount'⟩
        | true => exact ⟨0,_,rfl,hs3,hq2.trans hq3,rfl,_,rfl,hcount.trans hcount'⟩

/-- The addresses to which a `mprotect` of this range and protection gives write access if it
succeeds. -/
def grantsWrite (virt length : Nat) (prot : BitVec 32) (a : Nat) : Prop :=
  has prot protWrite = true ∧ virt ≤ a ∧ a < virt + pageCount length*pageSize

/-- When a `mprotect` succeeds: the arguments are right, every address of the range is mapped and none of its
pages is being populated, and there is memory for the regions that are split. -/
def Protectable (L : UserLayout) (s : Mm n) (virt length : Nat) (prot : BitVec 32) (new new' : Nat) : Prop :=
  let stop := virt + pageCount length*pageSize
  (length ≠ 0 ∧ length ≤ L.userEnd - L.userBegin ∧ virt % pageSize = 0 ∧ prot &&& ~~~7 = 0 ∧
    writeAndExec prot = false) ∧
  L.userRange virt (pageCount length*pageSize) = true ∧
  (∀ i < pageCount length, ∀ w, s.vmas.mapping (virt + i*pageSize) = some w → has w.flags vmaPopulating = false) ∧
  (∀ a, virt ≤ a → a < stop → s.vmas.mapping a ≠ none) ∧
  (Crosses virt s.vmas.records → new ≠ 0) ∧ (Crosses stop s.vmas.records → new' ≠ 0)

/-- A `mprotect` that returns 0 has given the whole range its protection; one that returns an error
has changed no protection. -/
def Reprotects (L : UserLayout) (virt length : Nat) (prot : BitVec 32) (new new' : Nat) (s : Mm n)
    (o : Option (Int × Mm n)) (ms : Option (List (Move Nat))) : Prop :=
  ∃ code s', o = some (code,s') ∧ s'.Sound ∧
    Quiet (fun a => code = 0 ∧ grantsWrite virt length prot a) s s' ∧ s'.calls = s.calls ∧ Keeping s s' ms ∧
    s'.sealed = s.sealed ∧ (code = 0 ↔ s.Protectable L virt length prot new new') ∧
    (code = 0 → ∀ a, virt ≤ a → a < virt + pageCount length*pageSize →
      ∃ w, s'.vmas.mapping a = some w ∧ w.prot = prot)

theorem setProt_effect {m m' : VmaManager} {start stop : Nat} {prot : BitVec 32}
    (hcont : ∀ x, content m'.records x = if true = true ∧ start ≤ x ∧ x < stop then
      (content m.records x).map fun w => { w with prot := prot } else content m.records x) :
    (∀ a w', m'.mapping a = some w' → ∃ w, m.mapping a = some w ∧ w'.flags = w.flags ∧
      (start ≤ a ∧ a < stop ∧ w'.prot = prot ∨ ¬(start ≤ a ∧ a < stop) ∧ w'.prot = w.prot)) ∧
    ∀ a, m'.mapping a = none → m.mapping a = none := by
  refine ⟨fun a w' hw => ?_,fun a hm => ?_⟩
  · rw [mapping,← content,hcont a] at hw
    by_cases ha : start ≤ a ∧ a < stop
    · rw [if_pos ⟨rfl,ha⟩] at hw
      obtain ⟨w,hw0,rfl⟩ := map_eq_some_iff.mp hw
      exact ⟨w,hw0,rfl,.inl ⟨ha.1,ha.2,rfl⟩⟩
    · rw [if_neg fun hc => ha hc.2] at hw
      exact ⟨w',hw,rfl,.inr ⟨ha,rfl⟩⟩
  · rw [mapping,← content,hcont a] at hm
    split at hm
    · exact map_eq_none_iff.mp hm
    · exact hm

theorem Sound.sysMprotect (h : s.Sound) {virt length new new' : Nat} {prot : BitVec 32}
    (hnew : s.Fresh new) (hnew' : s.Fresh new') (h1 : new' = new → new' = 0) :
    Reprotects L virt length prot new new' s (s.sysMprotect L virt length prot new new')
      (s.sysMprotectMoves L virt length prot new new') := by
  have hnode : ∀ {a}, s.Fresh a → a ∉ s.vmas.records.map (·.1) :=
    fun ha hm => ha (h.view.mem_nodes.mpr hm)
  unfold Mm.sysMprotect sysMprotectMoves
  dsimp only
  have hends : ∀ code : Int, code ≠ 0 → ¬s.Protectable L virt length prot new new' →
      Reprotects L virt length prot new new' s (some (code,s)) (some []) :=
    fun code hne hno => ⟨code,s,rfl,h,.refl _ s,rfl,keeping_refl s,rfl,iff_of_false hne hno,
      fun h0 => absurd h0 hne⟩
  split
  · rename_i hargs
    refine hends _ (by decide) fun ⟨⟨hlen,hmax,halign,hbits,hwx⟩,_⟩ => ?_
    simp only [hlen,Nat.not_lt.mpr hmax,halign,hbits,hwx,ne_eq,not_true,decide_false,Bool.or_false,
      Bool.false_eq_true] at hargs
  rename_i hargs
  split
  · rename_i hrange
    exact hends _ (by decide) fun hp => by simp [hp.2.1] at hrange
  rename_i hrange
  simp only [Bool.or_eq_true,decide_eq_true_eq,not_or,Decidable.not_not,Bool.not_eq_true,Nat.not_lt] at hargs
  obtain ⟨⟨⟨⟨hlen,hmax⟩,halign⟩,hbits⟩,hwx⟩ := hargs
  have hpos := pageCount_pos hlen
  obtain ⟨busy,h4,hfree⟩ := populationInRange_spec h.view (pageCount length) virt
  simp only [h4,bind_eq_bind,bind_some]
  cases busy with
  | true => exact hends _ (by decide) fun hp => by cases hfree.mpr hp.2.2.1
  | false =>
    have hfree := hfree.mp rfl
    have hoff := h.off_range hpos halign hfree
    obtain ⟨covered,h5,hcov⟩ := covers_spec h.view virt (virt + pageCount length*pageSize)
    simp only [h5,bind_some,Bool.false_eq_true,if_false]
    cases covered with
    | false =>
      have hlt : virt < virt + pageCount length*pageSize := by
        simp only [pageSize]
        omega
      exact hends _ (by decide) fun hp => by cases hcov.mpr ⟨hlt,hp.2.2.2.1⟩
    | true =>
      obtain ⟨hlt,hcov⟩ := hcov.mp rfl
      obtain ⟨ok,m1,rs1,h6,hview1,hkeeps,hcont,hok,ms,hms,hcount⟩ := setProt_spec virt
        (virt + pageCount length*pageSize) prot h.view (hnode hnew) (hnode hnew') h1
      simp only [h6,hms,bind_some,Bool.not_true,Bool.false_eq_true,if_false]
      obtain rfl := hview1.records
      cases ok with
      | false =>
        obtain ⟨hs1,hq1⟩ := (h.remapped_same (g := fun a => (-12 : Int) = 0 ∧ grantsWrite virt length prot a) hview1
          (fun a => by rw [hcont a]; simp) hkeeps hoff).sound
        exact ⟨-12,_,rfl,hs1,hq1,rfl,⟨ms,rfl,hcount⟩,rfl,iff_of_false (by decide) fun hp =>
          Bool.false_ne_true (hok.mpr ⟨⟨hlt,hcov⟩,hp.2.2.2.2⟩),fun h0 => absurd h0 (by decide)⟩
      | true =>
        obtain ⟨hback,hmapped⟩ := setProt_effect hcont
        have hframes : Frames (content m1.records) s.pages (fun t => (s.calls t).held) s.out
            s.supplied := by
          refine h.frames.remap fun k l _ => ?_
          rw [ownsPage,ownsPage]
          cases hm : m1.mapping (k*pageSize) with
          | none =>
            rw [hmapped _ hm]
            exact congrArg _ hm
          | some w' =>
            obtain ⟨w,hw,hfl,-⟩ := hback _ w' hm
            rw [hw,show content m1.records (k*pageSize) = some w' from hm]
            exact congrArg (has · vmaOwnsFrames) hfl
        obtain ⟨pages,h7,hf,hsub,hflags⟩ := protectPages_spec (s := { s with vmas := m1 }) hview1
          hframes (pageCount length) halign (fun i hi => by
            have hin : virt ≤ virt + i*pageSize ∧
                virt + i*pageSize < virt + pageCount length*pageSize := by
              simp only [pageSize]
              omega
            have hne : m1.mapping (virt + i*pageSize) ≠ none := fun hm =>
              hcov _ hin.1 hin.2 (hmapped _ hm)
            obtain ⟨w',hw'⟩ := ne_none_iff_exists'.mp hne
            obtain ⟨w,hw,hfl,-⟩ := hback _ w' hw'
            exact ⟨w',hw',by rw [hfl]; exact hfree i hi w hw⟩) (fun j l w' hj hw => by
            obtain ⟨w,hw0,-,⟨ha,hb,-⟩ | ⟨-,hp⟩⟩ := hback _ w' hw
            · exact .inl ⟨ha,hb⟩
            rw [hp]
            exact .inr (h.guarded.flags j l w hj hw0))
        rw [h7]
        refine ⟨0,_,rfl,⟨hview1,hf,⟨fun a w' hw => ?_,hflags⟩,
          ⟨fun u q lo hi hq => ?_,h.pending.apart⟩,h.calls,h.next⟩,fun a w' hw hs hwr => ?_,rfl,
          ⟨ms,rfl,hcount⟩,rfl,iff_of_true rfl ⟨⟨hlen,hmax,halign,hbits,hwx⟩,by simpa using hrange,hfree,hcov,
            (hok.mp rfl).2⟩,fun _ a ha hb => ?_⟩
        · obtain ⟨w,hw0,-,⟨-,-,hp⟩ | ⟨-,hp⟩⟩ := hback a w' hw
          · rw [hp]
            exact hwx
          · rw [hp]
            exact h.guarded.exclusive a w hw0
        · exact (h.pending.holds u q lo hi hq).mono (Reservation.kept hkeeps (hoff u q lo hi hq))
            fun k l hk _ _ => hsub k l hk
        · obtain ⟨w,hw0,-,⟨ha,hb,hp⟩ | ⟨-,hp⟩⟩ := hback a w' hw
          · rw [hp] at hwr
            exact ⟨hs,w,hw0,.inr ⟨rfl,hwr,ha,hb⟩⟩
          · exact ⟨hs,w,hw0,.inl hp.symm⟩
        have hne : m1.mapping a ≠ none := fun hm => hcov a ha hb (hmapped a hm)
        obtain ⟨w',hw'⟩ := ne_none_iff_exists'.mp hne
        obtain ⟨w,-,-,⟨-,-,hp⟩ | ⟨hno,-⟩⟩ := hback a w' hw'
        · exact ⟨w',hw',hp⟩
        · exact absurd ⟨ha,hb⟩ hno

/-- The addresses to which an event gives write access: those in the range of a `mprotect` that
succeeds. -/
def Event.grants (L : UserLayout) (s : Mm n) : Event n → Nat → Prop
  | .mprotect t addr length prot new new', a =>
    Call.isIdle (s.calls t) = true ∧ grantsWrite addr.toNat length.toNat prot a ∧
      s.Protectable L addr.toNat length.toNat prot new new'
  | _, _ => False

theorem isIdle_spec {c : Call} (h : Call.isIdle c = true) : ∃ r, c = .idle r := by
  cases c with
  | idle r => exact ⟨r,rfl⟩
  | _ => cases h

theorem Sound.next_step (h : s.Sound) {ch : Choice} (hoff : s.Offers ch.frame (s.calls t))
    (hfresh : s.Fresh ch.new) : Leads g s (s.next L t ch) := by
  unfold Mm.next
  split
  · exact leads_of_eq h rfl rfl
  · rename_i p i ht
    exact h.populate ht hoff
  · rename_i p i phys ht
    exact h.install ht ch
  · rename_i p installed i frame error ht
    exact h.giveBack (by rw [ht]; rfl) rfl (by rw [ht]; rfl) trivial
  · rename_i p installed i error ht
    exact h.unwind ht hfresh
  · rename_i p error ht
    exact h.reset ht
  · rename_i page write execute ht
    exact h.faultAlloc ht hoff
  · rename_i page write execute frame ht
    exact h.faultMap ht ch
  · rename_i frame resolved ht
    exact h.giveBack (by rw [ht]; rfl) rfl (by rw [ht]; rfl) trivial

theorem Sound.step (h : s.Sound) {e : Event n} (he : Valid (some s) e) :
    Leads (e.grants L s) s (s.step L e) := by
  unfold Mm.step
  split
  · exact leads_of_eq h rfl rfl
  rename_i hgo
  simp only [Bool.and_eq_true,Bool.not_eq_true',not_and,Bool.not_eq_false] at hgo
  cases e with
  | mmap t args new =>
    obtain ⟨r,hidle⟩ := isIdle_spec (hgo rfl)
    exact h.sysMmap hidle he
  | munmap t addr length new new' right =>
    obtain ⟨r,hidle⟩ := isIdle_spec (hgo rfl)
    obtain ⟨h1,h2,h3,h4,h5,h6⟩ := he
    exact (h.sysMunmap h1 h2 h3 h4 h5 h6).leads_finish hidle
  | mprotect t addr length prot new new' =>
    obtain ⟨r,hidle⟩ := isIdle_spec (hgo rfl)
    obtain ⟨h1,h2,h3⟩ := he
    obtain ⟨code,s1,h4,hs1,hq,hc,hk,-,hzero,-⟩ := h.sysMprotect (L := L) h1 h2 h3
    refine Ends.leads_finish ⟨code,s1,h4,hs1,fun a w hw hs hwr => ?_,hc,hk⟩ hidle
    obtain ⟨h5,w0,h6,h7 | ⟨rfl,h7⟩⟩ := hq a w hw hs hwr
    · exact ⟨h5,w0,h6,.inl h7⟩
    · exact ⟨h5,w0,h6,.inr ⟨hgo rfl,h7,hzero.mp rfl⟩⟩
  | fault t addr write execute =>
    obtain ⟨r,hidle⟩ := isIdle_spec (hgo rfl)
    exact h.handleFault hidle _ _ _
  | next t ch => exact h.next_step he.1 he.2

theorem sound_init (L : UserLayout) (n : Nat) (pages : PageTable) : (init L n pages).Sound := by
  have hmap : ∀ a, VmaManager.init.mapping a = none := fun a => by
    rfl
  refine ⟨?_,⟨⟨.nil,?_⟩,by simp [init],by simp [init],by simp [init]⟩,⟨?_,?_⟩,⟨?_,?_⟩,
    fun t => trivial,L.aligned⟩
  · exact view_init
  · have hnil : gather (fun _ : Fin n => ([] : List Nat)) = [] := by simp [gather]
    have hframes : pages.framesWhere (ownsPage VmaManager.init.mapping) = [] := by
      refine List.eq_nil_iff_forall_not_mem.mpr fun x hx => ?_
      obtain ⟨k,l,-,hown,-⟩ := mem_framesWhere.mp hx
      simp [ownsPage,hmap] at hown
    show List.Perm (gather (fun _ : Fin n => ([] : List Nat)) ++ _) []
    rw [hnil]
    exact .of_eq hframes
  · intro a w hw
    exact absurd (hmap a) (by rw [show VmaManager.init.mapping a = some w from hw]; simp)
  · intro k l w _ hw
    exact absurd (hmap _) (by rw [show VmaManager.init.mapping _ = some w from hw]; simp)
  · intro t p lo hi hp
    cases hp
  · intro t u p q lo hi lo' hi' _ hp
    cases hp

theorem run_sound (L : UserLayout) (pages : PageTable) (es : List (Event n))
    (hok : (machine L n pages).Along Valid (machine L n pages).initial es) :
    ∃ s, (machine L n pages).run es = some s ∧ s.Sound := by
  refine (machine L n pages).runFrom_invariant Valid (I := fun o => ∃ s, o = some s ∧ s.Sound)
    ?_ ⟨_,rfl,sound_init L n pages⟩ es hok
  rintro o e ⟨s,rfl,h⟩ he
  obtain ⟨s',h1,h2,-⟩ := h.step (L := L) he
  exact ⟨s',h1,h2⟩

end Mm

open Mm

/-- In every run, whatever fails, no step frees a frame that is mapped, was freed before or came from a callback.
Every frame taken and not returned is with one call, or mapped at one page whose region owns it; in the end all are
returned. -/
theorem user_frame_ownership (L : UserLayout) (n : Nat) (pages : PageTable) (es : List (Event n))
    (hok : (machine L n pages).Along Valid (machine L n pages).initial es) :
    ∃ s, (machine L n pages).run es = some s ∧ s.out.Nodup ∧ (∀ x ∈ s.out,
        (∃ t, x ∈ (s.calls t).held ∧ ∀ u, x ∈ (s.calls u).held → u = t) ∧
          (∀ k l, s.pages.leaf k = some l → l.frame ≠ x) ∨
        (∀ t, x ∉ (s.calls t).held) ∧ ∃ k l w, s.pages.leaf k = some l ∧ l.frame = x ∧
          s.vmas.mapping (k*pageSize) = some w ∧ has w.flags vmaOwnsFrames = true ∧
          ∀ j m, s.pages.leaf j = some m → m.frame = x → j = k) ∧
      (∀ t, ∀ x ∈ (s.calls t).held, x ∈ s.out) ∧
      (∀ k l w, s.pages.leaf k = some l → s.vmas.mapping (k*pageSize) = some w →
        has w.flags vmaOwnsFrames = true → l.frame ∈ s.out) ∧
      (∀ x ∈ s.supplied, x ∉ s.out) ∧
      ((∀ t, ∃ r, s.calls t = .idle r) → s.vmas.records = [] → s.out = []) := by
  obtain ⟨s,hrun,h⟩ := run_sound L pages es hok
  have hframe : ∀ k l, s.pages.leaf k = some l → l.frame ∈ s.out →
      l.frame ∈ s.pages.framesWhere (ownsPage s.vmas.mapping) := fun k l hk hm =>
    mem_framesWhere.mpr ⟨k,l,hk,h.frames.foreign k l hk hm,rfl⟩
  have hstored := (List.nodup_append.mp h.frames.custody.placed_nodup).2.1
  refine ⟨s,hrun,h.frames.custody.nodup,fun x hx => ?_,fun t x hx => h.frames.custody.mem_of_held hx,
    fun k l w hk hw ho => ?_,h.frames.apart,fun hidle hnone => ?_⟩
  · rcases h.frames.custody.exclusive hx with ⟨hone,hno⟩ | ⟨hno,hmem⟩
    · exact .inl ⟨hone,fun k l hk hl => hno (hl ▸ hframe k l hk (hl ▸ hx))⟩
    obtain ⟨k,l,hk,hown,rfl⟩ := mem_framesWhere.mp hmem
    obtain ⟨w,hw,ho⟩ := ownsPage_eq_true.mp hown
    refine .inr ⟨hno,k,l,w,hk,rfl,hw,ho,fun j m hj hm => ?_⟩
    have hown' := h.frames.foreign j m hj (by rwa [hm])
    exact page_unique hstored hk hown hj hown' hm.symm
  · refine h.frames.custody.mem_of_store (mem_framesWhere.mpr ⟨k,l,hk,?_,rfl⟩)
    rw [ownsPage,hw]
    exact ho
  refine List.eq_nil_iff_forall_not_mem.mpr fun x hx => ?_
  rcases h.frames.custody.exclusive hx with ⟨⟨t,ht,-⟩,-⟩ | ⟨-,hmem⟩
  · obtain ⟨r,hr⟩ := hidle t
    rw [hr] at ht
    cases ht
  obtain ⟨k,l,-,hown,-⟩ := mem_framesWhere.mp hmem
  rw [ownsPage,mapping,hnone] at hown
  cases hown

namespace Mm

def give (frame : Nat) : Choice := ⟨frame,false,fun _ _ => 0,true,0⟩

/-- One thread maps two pages; a second one tries to unmap the first of them before the mapping is
complete, and again when it is. -/
def unmapRace (t u : Fin 2) : List (Event 2) :=
  [.mmap t ⟨0,0x2000,3,0x22,-1,0,none⟩ 16,.next t (give 0x5000),
    .munmap u 0xA000000000 0x1000 32 48 64,.next t (give 0),.next t (give 0x6000),.next t (give 0),
    .next t (give 0),.munmap u 0xA000000000 0x1000 32 48 64]

end Mm

theorem user_frame_ownership_unmapRace :
    ∃ s, (machine .amd64 2 ∅).run (unmapRace 0 1) = some s ∧ s.out = [0x6000] ∧
      ∃ k l w, s.pages.leaf k = some l ∧ l.frame = 0x6000 ∧
        s.vmas.mapping (k*pageSize) = some w ∧ has w.flags vmaOwnsFrames = true := by
  obtain ⟨s,hrun,-,hplace,-⟩ :=
    user_frame_ownership .amd64 2 ∅ (unmapRace 0 1) (by decide +kernel)
  have hvals : ((machine .amd64 2 ∅).run (unmapRace 0 1)).map
      (fun s => (s.out,(s.calls 0).held,(s.calls 1).held)) = some ([0x6000],[],[]) := by
    decide +kernel
  rw [hrun,map_some,some.injEq,Prod.mk.injEq,Prod.mk.injEq] at hvals
  obtain ⟨hout,h0,h1⟩ := hvals
  refine ⟨s,hrun,hout,?_⟩
  rcases hplace 0x6000 (by simp [hout]) with ⟨⟨t,ht,-⟩,-⟩ | ⟨-,k,l,w,hk,hl,hw,ho,-⟩
  · have hnil : ∀ t : Fin 2, (s.calls t).held = [] := Fin.forall_fin_two.mpr ⟨h0,h1⟩
    rw [hnil t] at ht
    cases ht
  · exact ⟨k,l,w,hk,hl,hw,ho⟩

namespace Mm
variable {n : Nat} {L : UserLayout} {s s' : Mm n}

/-- No address of a shared mapping of a descriptor not open for reading and writing is writable. -/
def Respects (s : Mm n) : Prop :=
  ∀ a w, s.vmas.mapping a = some w → s.sealed a = true → has w.prot protWrite = false

def Refrains (L : UserLayout) (o : Option (Mm n)) (e : Event n) : Prop :=
  ∀ s, o = some s → ∀ a, e.grants L s a → s.sealed a = false

section
variable (h : s.Sound) {e : Event n} (he : Valid (some s) e) (hstep : s.step L e = some s')
include h he hstep

theorem Sound.step_grants {a : Nat} (hg : e.grants L s a) :
    s'.sealed = s.sealed ∧ ∃ w, s'.vmas.mapping a = some w ∧ has w.prot protWrite = true := by
  cases e with
  | mprotect t addr length prot new new' =>
    obtain ⟨hidle,⟨hwr,ha,hb⟩,hp⟩ := hg
    obtain ⟨h1,h2,h3⟩ := he
    obtain ⟨code,s2,h4,-,-,-,-,hseal,hzero,hdone⟩ := h.sysMprotect (L := L) h1 h2 h3
    obtain rfl := hzero.mpr hp
    simp only [Mm.step,Event.begins,Event.thread,hidle,h4] at hstep
    obtain rfl := some.inj hstep
    obtain ⟨w,hw,hp⟩ := hdone rfl a ha hb
    exact ⟨hseal,w,hw,by rw [hp]; exact hwr⟩
  | _ => exact hg.elim

theorem Sound.step_respects (hr : s.Respects) : s'.Respects ↔ Refrains L (some s) e := by
  obtain ⟨s1,h1,-,hq⟩ := h.step (L := L) he
  obtain rfl := some.inj (h1.symm.trans hstep)
  constructor
  · intro hr' s0 hs0 a hg
    obtain rfl := some.inj hs0
    obtain ⟨hseal,w,hw,hwr⟩ := h.step_grants he hstep hg
    by_contra hne
    have hno := hr' a w hw (by rw [hseal]; simpa using hne)
    rw [hwr] at hno
    cases hno
  intro hno a w hw hs
  by_contra hwr
  obtain ⟨hs0,w0,hw0,hp | hg⟩ := hq a w hw hs (by simpa using hwr)
  · have hread := hr a w0 hw0 hs0
    rw [hp] at hread
    exact hwr hread
  · rw [hno s rfl a hg] at hs0
    cases hs0

end

/-- Along a run from a sound space the rule holds at every moment exactly if it holds at first and
no event breaks it. -/
theorem respects_along (pages : PageTable) (es : List (Event n)) {s : Mm n} (h : s.Sound)
    (hok : (machine L n pages).Along Valid (some s) es) :
    (∀ xs ys, es = xs ++ ys → ∀ s', (machine L n pages).runFrom (some s) xs = some s' → s'.Respects) ↔
      s.Respects ∧ (machine L n pages).Along (Refrains L) (some s) es := by
  induction es generalizing s with
  | nil =>
    constructor
    · exact fun hall => ⟨hall [] [] rfl s rfl,trivial⟩
    rintro ⟨hr,-⟩ xs ys hxs s' hrun
    obtain ⟨rfl,rfl⟩ := List.append_eq_nil_iff.mp hxs.symm
    obtain rfl := some.inj hrun
    exact hr
  | cons e es ih =>
    obtain ⟨s1,h1,hs1,-⟩ := h.step (L := L) hok.1
    have hm : (machine L n pages).step (some s) e = some s1 := h1
    have hok1 := hok.2
    rw [hm] at hok1
    have hrest := ih hs1 hok1
    simp only [Machine.Along,hm]
    constructor
    · intro hall
      have hr : s.Respects := hall [] (e :: es) rfl s rfl
      obtain ⟨hr1,halong⟩ := hrest.mp fun xs ys hxs s' hrun =>
        hall (e :: xs) ys (by rw [hxs]; rfl) s' (by rw [Machine.runFrom_cons,hm]; exact hrun)
      exact ⟨hr,(h.step_respects hok.1 h1 hr).mp hr1,halong⟩
    rintro ⟨hr,hno,halong⟩ xs ys hxs s' hrun
    cases xs with
    | nil =>
      obtain rfl := some.inj hrun
      exact hr
    | cons x xs =>
      obtain ⟨rfl,hes⟩ := List.cons.inj hxs
      rw [Machine.runFrom_cons,hm] at hrun
      exact hrest.mpr ⟨(h.step_respects hok.1 h1 hr).mpr hno,halong⟩ xs ys hes s' hrun

theorem respects_init (L : UserLayout) (n : Nat) (pages : PageTable) : (init L n pages).Respects := by
  intro a w _ hs
  cases hs

end Mm

open Mm

/-- After every run no region is writable and executable, and the leaves have the flags of their region's
protection. No page of a shared mapping of a descriptor not open for writing is writable at any moment if and only
if no `mprotect` asks for it where it can succeed. -/
theorem mmap_protection (L : UserLayout) (n : Nat) (pages : PageTable) (es : List (Event n))
    (hok : (machine L n pages).Along Valid (machine L n pages).initial es) :
    (∃ s, (machine L n pages).run es = some s ∧ (∀ x ∈ s.vmas.records, writeAndExec x.2.prot = false) ∧
      ∀ k l w, s.pages.leaf k = some l → s.vmas.mapping (k*pageSize) = some w →
        l.flags = flagsForProt w.prot) ∧
    ((∀ xs ys, es = xs ++ ys → ∀ s, (machine L n pages).run xs = some s →
        ∀ a w, s.vmas.mapping a = some w → s.sealed a = true → has w.prot protWrite = false) ↔
      (machine L n pages).Along (Refrains L) (machine L n pages).initial es) := by
  constructor
  · obtain ⟨s,hrun,h⟩ := run_sound L pages es hok
    refine ⟨s,hrun,fun x hx => ?_,h.guarded.flags⟩
    have hin : vmaExtent.Around x x.2.start := ⟨le_rfl,h.view.inhabited hx⟩
    exact h.guarded.exclusive _ _ (h.ordered.content_of_mem hx hin)
  · refine (respects_along pages es (sound_init L n pages) hok).trans ?_
    exact and_iff_right (respects_init L n pages)

namespace Mm

def readOnlyDevice : Descriptor := ⟨7,0,some ⟨true,true,none⟩,false,0⟩

def upgradeShared : List (Event 1) :=
  [.mmap 0 ⟨0,0x1000,1,0x01,3,0,some readOnlyDevice⟩ 16,.next 0 (give 0xE0000000),.next 0 (give 0),
    .next 0 (give 0),.mprotect 0 0xA000000000 0x1000 3 0 0]

end Mm

theorem upgradeShared_writable :
    (machine .amd64 1 ∅).Along Valid (machine .amd64 1 ∅).initial upgradeShared ∧
    ∃ s, (machine .amd64 1 ∅).run upgradeShared = some s ∧ s.sealed 0xA000000000 = true ∧
      (∃ w, s.vmas.mapping 0xA000000000 = some w ∧ has w.flags mapShared = true ∧
        has w.prot protWrite = true) ∧
      ∃ l, s.pages.leaf (0xA000000000/pageSize) = some l ∧ l.flags &&& pageWritable ≠ 0 := by
  refine ⟨by decide +kernel,?_⟩
  have hvals : ((machine .amd64 1 ∅).run upgradeShared).map (fun s => (s.sealed 0xA000000000,
      (s.vmas.mapping 0xA000000000).map (fun w => (w.prot,has w.flags mapShared)),
      (s.pages.leaf (0xA000000000/pageSize)).map (·.flags))) =
      some (true,some (3,true),some (flagsForProt 3)) := by decide +kernel
  obtain ⟨s,hrun,hs⟩ := map_eq_some_iff.mp hvals
  obtain ⟨hseal,hmap,hleaf⟩ : _ ∧ _ ∧ _ := by simpa only [Prod.mk.injEq] using hs
  obtain ⟨w,hw,hp⟩ := map_eq_some_iff.mp hmap
  obtain ⟨l,hl,hf⟩ := map_eq_some_iff.mp hleaf
  obtain ⟨hp,hsh⟩ := Prod.mk.inj hp
  refine ⟨s,hrun,hseal,⟨w,hw,hsh,by rw [hp]; decide⟩,l,hl,?_⟩
  rw [hf]
  decide

theorem mmap_protection_unmapRace : ∃ s, (machine .amd64 2 ∅).run (unmapRace 0 1) = some s ∧
      ∀ x ∈ s.vmas.records, writeAndExec x.2.prot = false := by
  obtain ⟨⟨s,hrun,hwx,-⟩,-⟩ := mmap_protection .amd64 2 ∅ (unmapRace 0 1) (by decide +kernel)
  exact ⟨s,hrun,hwx⟩

end Rucux.Memory
